import Ucore.Lib.Count
import Ucore.Sfs.Refine

/-!
# The directory tree

The abstract side of the directory operations: a tree of nodes, the table of all its directory entries,
and what is always true of it.

* `Tree.total` — how many links a node should have: the entries that name it and, for a directory, its
  own `.` and the `..` of its subdirectories.
* `Sound t x` — the invariant; `x` is a directory that is on its way from one entry to another.
* `Sound.add`, `Sound.del`, `Sound.put`, `Sound.erase` — one entry more, one less, another name for an
  entry, one node less.
-/

namespace Ucore.Sfs

open Occurrence
open Function (update update_of_ne update_self)

namespace Tree

/-- The entry in slot `p.2` of directory `p.1`. -/
def ent (t : Tree) (p : ℕ × ℕ) : Option (ℕ × Name) := (t p.1).bind fun n => n.ents p.2

/-- The slots of a directory. -/
def row (t : Tree) (d j : ℕ) : Option (ℕ × Name) := t.ent (d, j)

def isDir (t : Tree) (i : ℕ) : Prop := ∃ n, t i = some n ∧ n.type = SFS_TYPE_DIR

/-- The entry names node `i`. -/
def Names (i : ℕ) (e : Option (ℕ × Name)) : Prop := ∃ nm, e = some (i, nm)

/-- The entry names a directory. -/
def NamesDir (t : Tree) (e : Option (ℕ × Name)) : Prop := ∃ i nm, e = some (i, nm) ∧ t.isDir i

noncomputable def names (t : Tree) (i : ℕ) : ℕ := occ t.ent (Names i)

/-- The number of subdirectories. -/
noncomputable def subs (t : Tree) (d : ℕ) : ℕ := occ (t.row d) t.NamesDir

open Classical in
/-- The links that a directory has without being named: `.`, for the root also `..`, and the `..` of its
subdirectories. -/
noncomputable def own (t : Tree) (i : ℕ) : ℕ :=
  if t.isDir i then (if i = SFS_BLKN_ROOT then 2 else 1) + t.subs i else 0

noncomputable def total (t : Tree) (i : ℕ) : ℕ := t.names i + t.own i

/-- A change of one node. -/
def edit (t : Tree) (i : ℕ) (f : Node → Node) : Tree := fun k => if k = i then (t k).map f else t k

end Tree

/-- What is true of every tree of nodes between two operations.  Directory `x` may be without an
entry. -/
structure Sound (t : Tree) (x : Option ℕ) : Prop where
  root : ∃ n, t SFS_BLKN_ROOT = some n ∧ n.type = SFS_TYPE_DIR ∧ n.removed = false ∧
    n.parent = SFS_BLKN_ROOT
  finite : {p | t.ent p ≠ none}.Finite
  inside : ∀ d n j, t d = some n → n.ents j ≠ none → n.type = SFS_TYPE_DIR ∧ j < n.blocks
  target : ∀ p i nm, t.ent p = some (i, nm) → t.has i ∧ i ≠ SFS_BLKN_ROOT
  unique : ∀ d j j' i i' nm, t.ent (d, j) = some (i, nm) → t.ent (d, j') = some (i', nm) → j = j'
  slots : ∀ d n, t d = some n → n.type = SFS_TYPE_DIR → n.info = occ (t.row d) (· ≠ none)
  links : ∀ i n, t i = some n → n.removed = false → n.nlinks = t.total i % 65536
  gone : ∀ i n, t i = some n → n.removed = true → n.type = SFS_TYPE_DIR ∧ n.nlinks = 0 ∧
    (∀ j, n.ents j = none) ∧ ∀ p nm, t.ent p ≠ some (i, nm)
  holder : ∀ i n, t i = some n → n.type = SFS_TYPE_DIR → n.removed = false → i ≠ SFS_BLKN_ROOT →
    x ≠ some i → ∃ j nm, t.ent (n.parent, j) = some (i, nm)
  once : ∀ i p p' nm nm', t.isDir i → t.ent p = some (i, nm) → t.ent p' = some (i, nm') → p = p'
  loose : ∀ i, x = some i → i ≠ SFS_BLKN_ROOT ∧
    (∃ n, t i = some n ∧ n.type = SFS_TYPE_DIR ∧ n.removed = false) ∧ ∀ p nm, t.ent p ≠ some (i, nm)
  big : ∀ i n, t i = some n → 65536 ≤ t.total i → 0 < n.ref

namespace Tree

section Edit

variable {t : Tree} {i k : ℕ} {f : Node → Node} {n n' : Node}

theorem edit_self (h : t i = some n) : t.edit i f i = some (f n) := by
  unfold edit
  rw [if_pos rfl, h]
  rfl

theorem edit_of_ne (h : k ≠ i) : t.edit i f k = t k := if_neg h

/-- The change as the primitive operations make it. -/
theorem edit_eq (h : t i = some n) : t.edit i f = update t i (some (f n)) := by
  funext k
  by_cases hk : k = i
  · rw [hk, edit_self h, update_self]
  · rw [edit_of_ne hk, update_of_ne hk]

theorem edit_some : t.edit i f k = some n' ↔ ∃ n, t k = some n ∧ n' = if k = i then f n else n := by
  by_cases hk : k = i
  · subst hk
    unfold edit
    simp only [if_true, Option.map_eq_some_iff, eq_comm (a := n')]
  · rw [edit_of_ne hk]
    simp only [hk, if_false]
    constructor
    · exact fun h => ⟨n', h, rfl⟩
    · rintro ⟨n, h, rfl⟩
      exact h

theorem has_edit : (t.edit i f).has k ↔ t.has k := by
  unfold Tree.has edit
  split
  · simp
  · exact Iff.rfl

/-- A change that keeps the slots keeps the table of entries. -/
theorem ent_edit (hf : ∀ n, t i = some n → (f n).ents = n.ents) : (t.edit i f).ent = t.ent := by
  funext p
  unfold ent edit
  by_cases hp : p.1 = i
  · rw [if_pos hp]
    cases hn : t p.1 with
    | none => rfl
    | some n =>
      show (f n).ents p.2 = n.ents p.2
      rw [hf n (hp ▸ hn)]
  · rw [if_neg hp]

/-- A change of one slot. -/
theorem ent_edit_slot {d j : ℕ} {e : Option (ℕ × Name)} (h : t.has d)
    (hf : ∀ n, t d = some n → (f n).ents = update n.ents j e) :
    (t.edit d f).ent = update t.ent (d, j) e := by
  obtain ⟨n, hn⟩ := Option.ne_none_iff_exists'.mp h
  funext p
  obtain ⟨d', j'⟩ := p
  by_cases hd : d' = d
  · subst hd
    have hent : (t.edit d' f).ent (d', j') = update n.ents j e j' := by
      unfold ent
      rw [edit_self hn, ← hf n hn]
      rfl
    have hold : t.ent (d', j') = n.ents j' := by
      unfold ent
      rw [hn]
      rfl
    rw [hent]
    by_cases hj : j' = j
    · rw [hj, update_self, update_self]
    · have hne : (d', j') ≠ (d', j) := fun h => hj (Prod.mk.inj h).2
      rw [update_of_ne hj, update_of_ne hne, hold]
  · have hne : (d', j') ≠ (d, j) := fun h => hd (Prod.mk.inj h).1
    rw [update_of_ne hne]
    unfold ent
    rw [edit_of_ne hd]

theorem isDir_edit (hf : ∀ n, t i = some n → (f n).type = n.type) : (t.edit i f).isDir = t.isDir := by
  funext k
  refine propext ⟨?_, ?_⟩
  · rintro ⟨n', hn', ht⟩
    obtain ⟨n, hn, rfl⟩ := edit_some.mp hn'
    refine ⟨n, hn, ?_⟩
    split at ht
    · rename_i hk
      rw [← hf n (hk ▸ hn)]
      exact ht
    · exact ht
  · rintro ⟨n, hn, ht⟩
    refine ⟨_, edit_some.mpr ⟨n, hn, rfl⟩, ?_⟩
    split
    · rename_i hk
      rw [hf n (hk ▸ hn)]
      exact ht
    · exact ht

theorem ent_of (h : t i = some n) (j : ℕ) : t.ent (i, j) = n.ents j := by
  unfold ent
  rw [h]
  rfl

end Edit

/-! ## Counting entries -/

section Counting

variable {t t' : Tree} {d j i : ℕ} {nm : Name} {e : Option (ℕ × Name)}

theorem Names.ne_none (h : Names i e) : e ≠ none := by
  obtain ⟨nm, rfl⟩ := h
  simp

theorem NamesDir.ne_none (h : t.NamesDir e) : e ≠ none := by
  obtain ⟨i, nm, rfl, -⟩ := h
  simp

theorem names_some {i' : ℕ} : Names i (some (i', nm)) ↔ i' = i := by
  unfold Names
  simp

theorem namesDir_some : t.NamesDir (some (i, nm)) ↔ t.isDir i := by
  constructor
  · rintro ⟨i', nm', he, hd⟩
    cases he
    exact hd
  · exact fun hd => ⟨i, nm, rfl, hd⟩

theorem finite_names (h : {p | t.ent p ≠ none}.Finite) (i : ℕ) : {p | Names i (t.ent p)}.Finite :=
  h.subset fun _ hp => Names.ne_none hp

theorem finite_row (h : {p | t.ent p ≠ none}.Finite) (d : ℕ) {P : Option (ℕ × Name) → Prop}
    (hP : ∀ e, P e → e ≠ none) : {j | P (t.row d j)}.Finite := by
  have himg : ((fun p : ℕ × ℕ => p.2) '' {p | t.ent p ≠ none}).Finite := h.image _
  refine himg.subset fun j hj => ⟨(d, j), hP _ hj, rfl⟩

theorem row_update (h : t'.ent = update t.ent (d, j) e) (d' : ℕ) :
    t'.row d' = if d' = d then update (t.row d') j e else t.row d' := by
  funext j'
  unfold row
  rw [h]
  by_cases hd : d' = d
  · rw [if_pos hd]
    subst hd
    by_cases hj : j' = j
    · rw [hj, update_self, update_self]
    · have hne : (d', j') ≠ (d', j) := fun h => hj (Prod.mk.inj h).2
      rw [update_of_ne hj, update_of_ne hne]
  · have hne : (d', j') ≠ (d, j) := fun h => hd (Prod.mk.inj h).1
    rw [if_neg hd, update_of_ne hne]

open Classical in
/-- The links that are due change with a slot: one for the node that it names, and one for the directory
if that node is one. -/
theorem total_update (hfin : {p | t.ent p ≠ none}.Finite)
    (h : t'.ent = update t.ent (d, j) e) (hdir : t'.isDir = t.isDir) (hd : t.isDir d) (k : ℕ) :
    t'.total k + (if Names k (t.ent (d, j)) then 1 else 0) +
        (if k = d ∧ t.NamesDir (t.ent (d, j)) then 1 else 0) =
      t.total k + (if Names k e then 1 else 0) + (if k = d ∧ t.NamesDir e then 1 else 0) := by
  have hnames := occ_update (d, j) e (finite_names hfin k)
  rw [← h] at hnames
  have hpred : t'.NamesDir = t.NamesDir := by
    unfold NamesDir
    rw [hdir]
  have hsubs : t'.subs k + (if k = d ∧ t.NamesDir (t.ent (d, j)) then 1 else 0) =
      t.subs k + (if k = d ∧ t.NamesDir e then 1 else 0) := by
    unfold subs
    rw [row_update h, hpred]
    by_cases hk : k = d
    · subst hk
      have := occ_update j e (finite_row (P := t.NamesDir) hfin k fun _ => NamesDir.ne_none)
      rw [if_pos rfl]
      simp only [true_and]
      exact this
    · simp only [hk, if_false, false_and]
  have hown : t'.own k + (if k = d ∧ t.NamesDir (t.ent (d, j)) then 1 else 0) =
      t.own k + (if k = d ∧ t.NamesDir e then 1 else 0) := by
    unfold own
    rw [hdir]
    by_cases hk : t.isDir k
    · rw [if_pos hk, if_pos hk]
      omega
    · have hkd : k ≠ d := fun he => hk (he ▸ hd)
      simp only [hk, hkd, if_false, false_and]
  unfold total
  unfold names
  omega

/-- A name does not count. -/
theorem total_rename {nm' : Name} (hfin : {p | t.ent p ≠ none}.Finite)
    (he : t.ent (d, j) = some (i, nm)) (h : t'.ent = update t.ent (d, j) (some (i, nm')))
    (hdir : t'.isDir = t.isDir) (hd : t.isDir d) : t'.total = t.total := by
  classical
  funext k
  have hsum := total_update hfin h hdir hd k
  have hsame : k = d ∧ t.NamesDir (some (i, nm)) ↔ k = d ∧ t.NamesDir (some (i, nm')) := by
    rw [namesDir_some, namesDir_some]
  rw [he, if_congr (names_some.trans names_some.symm) rfl rfl, if_congr hsame rfl rfl] at hsum
  exact Nat.add_right_cancel (Nat.add_right_cancel hsum)

/-- The entries are the same, and so are the kinds of the nodes that they name. -/
theorem subs_congr (h : t'.ent = t.ent)
    (hdir : ∀ i, (∃ p nm, t.ent p = some (i, nm)) → (t'.isDir i ↔ t.isDir i)) : t'.subs = t.subs := by
  funext k
  have hset : {j | t'.NamesDir (t'.row k j)} = {j | t.NamesDir (t.row k j)} := by
    ext j
    show t'.NamesDir (t'.ent (k, j)) ↔ t.NamesDir (t.ent (k, j))
    rw [h]
    unfold NamesDir
    refine exists_congr fun i => exists_congr fun nm => and_congr_right fun he => hdir i ⟨_, nm, he⟩
  unfold subs occ
  rw [hset]

theorem total_congr {k : ℕ} (h : t'.ent = t.ent)
    (hdir : ∀ i, (∃ p nm, t.ent p = some (i, nm)) → (t'.isDir i ↔ t.isDir i))
    (hk : t'.isDir k ↔ t.isDir k) : t'.total k = t.total k := by
  unfold total own names
  rw [h, subs_congr h hdir, propext hk]

end Counting

/-! ## The operations on the tree -/

/-- Slot `j` of directory `d` gets an entry for node `i`; `dir` says that `i` is a directory. -/
def add (t : Tree) (d j i : ℕ) (nm : Name) (dir : Bool) : Tree := fun k => (t k).map fun n => { n with
  nlinks := (n.nlinks + (if k = i then 1 else 0) + (if k = d ∧ dir then 1 else 0)) % 65536
  parent := if k = i ∧ dir then d else n.parent
  info := if k = d then (n.info + 1) % 2 ^ 32 else n.info
  blocks := if k = d then max n.blocks (j + 1) else n.blocks
  ents := if k = d then update n.ents j (some (i, nm)) else n.ents }

/-- The entry for node `i` in slot `j` of directory `d` is deleted. -/
def del (t : Tree) (d j i : ℕ) (dir : Bool) : Tree := fun k => (t k).map fun n => { n with
  nlinks := n.nlinks - (if k = i then 1 else 0) - (if k = d ∧ dir then 1 else 0)
  info := if k = d then n.info - 1 else n.info
  ents := if k = d then update n.ents j none else n.ents }

/-- The entry in slot `j` of directory `d` gets another name. -/
def put (t : Tree) (d j i : ℕ) (nm : Name) : Tree :=
  t.edit d fun n => { n with ents := update n.ents j (some (i, nm)) }

/-- An empty directory that has no entry is flagged as removed. -/
def remove (t : Tree) (i : ℕ) : Tree :=
  t.edit i fun n => { n with nlinks := n.nlinks - 1, removed := true }

section Shape

variable {t t' : Tree} {g : ℕ → Node → Node} {d j k : ℕ} {e : Option (ℕ × Name)}

theorem map_some {n' : Node} : (t k).map (g k) = some n' ↔ ∃ n, t k = some n ∧ n' = g k n := by
  simp only [Option.map_eq_some_iff, eq_comm (a := n')]

theorem ent_map_slot (ht : t' = fun k => (t k).map (g k)) (h : t.has d)
    (hg : ∀ n, (g d n).ents = update n.ents j e) (hg' : ∀ k n, k ≠ d → (g k n).ents = n.ents) :
    t'.ent = update t.ent (d, j) e := by
  have hself : t'.ent = (t.edit d (g d)).ent := by
    funext p
    unfold ent edit
    rw [ht]
    dsimp only
    by_cases hp : p.1 = d
    · rw [if_pos hp, hp]
    · rw [if_neg hp]
      cases t p.1 with
      | none => rfl
      | some n => exact congrFun (hg' _ n hp) p.2
  rw [hself]
  exact ent_edit_slot h fun n _ => hg n

theorem isDir_map (ht : t' = fun k => (t k).map (g k)) (hg : ∀ k n, (g k n).type = n.type) :
    t'.isDir = t.isDir := by
  funext k
  refine propext ⟨?_, ?_⟩
  · rintro ⟨n', hn', htype⟩
    rw [ht] at hn'
    obtain ⟨n, hn, rfl⟩ := map_some.mp hn'
    exact ⟨n, hn, hg k n ▸ htype⟩
  · rintro ⟨n, hn, htype⟩
    refine ⟨g k n, ?_, (hg k n).trans htype⟩
    rw [ht]
    exact map_some.mpr ⟨n, hn, rfl⟩

theorem has_map (ht : t' = fun k => (t k).map (g k)) : t'.has k ↔ t.has k := by
  unfold Tree.has
  rw [ht]
  simp

end Shape

/-! ## One entry more or less -/

section Entry

variable {t : Tree} {d j i : ℕ} {nm : Name} {dir : Bool}

theorem ent_add (hd : t.has d) : (t.add d j i nm dir).ent = update t.ent (d, j) (some (i, nm)) :=
  ent_map_slot rfl hd (fun _ => if_pos rfl) fun _ _ hk => if_neg hk

theorem isDir_add : (t.add d j i nm dir).isDir = t.isDir := isDir_map rfl fun _ _ => rfl

theorem ent_del (hd : t.has d) : (t.del d j i dir).ent = update t.ent (d, j) none :=
  ent_map_slot rfl hd (fun _ => if_pos rfl) fun _ _ hk => if_neg hk

theorem isDir_del : (t.del d j i dir).isDir = t.isDir := isDir_map rfl fun _ _ => rfl

theorem total_add (hfin : {p | t.ent p ≠ none}.Finite) (hd : t.isDir d) (hempty : t.ent (d, j) = none)
    (hkind : t.isDir i ↔ dir = true) (k : ℕ) : (t.add d j i nm dir).total k =
      t.total k + (if k = i then 1 else 0) + (if k = d ∧ dir then 1 else 0) := by
  obtain ⟨n, hn, htype⟩ := hd
  have hent : (t.add d j i nm dir).ent = update t.ent (d, j) (some (i, nm)) := ent_add (has_of hn)
  have hsum := total_update hfin hent isDir_add ⟨n, hn, htype⟩ k
  have h1 : ¬ Names k none := fun hn => hn.ne_none rfl
  have h2 : ¬ t.NamesDir none := fun hn => hn.ne_none rfl
  rw [hempty] at hsum
  simp only [h1, h2, and_false, if_false, Nat.add_zero, names_some, namesDir_some, hkind,
    eq_comm (a := i)] at hsum
  exact hsum

theorem total_del (hfin : {p | t.ent p ≠ none}.Finite) (hd : t.isDir d) (he : t.ent (d, j) = some (i, nm))
    (hkind : t.isDir i ↔ dir = true) (k : ℕ) : (t.del d j i dir).total k + (if k = i then 1 else 0) +
      (if k = d ∧ dir then 1 else 0) = t.total k := by
  obtain ⟨n, hn, htype⟩ := hd
  have hent : (t.del d j i dir).ent = update t.ent (d, j) none := ent_del (has_of hn)
  have hsum := total_update hfin hent isDir_del ⟨n, hn, htype⟩ k
  have h1 : ¬ Names k none := fun hn => hn.ne_none rfl
  have h2 : ¬ t.NamesDir none := fun hn => hn.ne_none rfl
  rw [he] at hsum
  simp only [h1, h2, and_false, if_false, Nat.add_zero, names_some, namesDir_some, hkind,
    eq_comm (a := i)] at hsum
  exact hsum

end Entry

end Tree

section Preserve

variable {t : Tree} {x : Option ℕ} {d j i : ℕ} {nm : Name} {nd ni : Node}

open Sfs.Tree

/-- A slot that is not in use is one more than those in use. -/
theorem Sound.count_lt (h : Sound t x) (hd : t d = some nd) (hempty : t.ent (d, j) = none) :
    occ (t.row d) (· ≠ none) + 1 ≤ max nd.blocks (j + 1) := by
  have hfin : {m | t.row d m ≠ none}.Finite := finite_row (P := (· ≠ none)) h.finite d fun _ => id
  have hnot : j ∉ {m | t.row d m ≠ none} := fun hm => hm hempty
  have hsub : insert j {m | t.row d m ≠ none} ⊆ ↑(Finset.range (max nd.blocks (j + 1))) := by
    intro m hm
    rw [Finset.mem_coe, Finset.mem_range]
    rcases hm with rfl | hm
    · omega
    · have hm' : t.row d m ≠ none := hm
      unfold row at hm'
      rw [ent_of hd] at hm'
      have := (h.inside d nd m hd hm').2
      omega
  have hcard := Set.ncard_le_ncard hsub (Finset.finite_toSet _)
  rw [Set.ncard_coe_finset, Finset.card_range, Set.ncard_insert_of_notMem hnot hfin] at hcard
  exact hcard

theorem Sound.isDir_iff (hi : t i = some ni) : t.isDir i ↔ ni.type = SFS_TYPE_DIR := by
  constructor
  · rintro ⟨n, hn, ht⟩
    rw [hi] at hn
    cases hn
    exact ht
  · exact fun ht => ⟨ni, hi, ht⟩

/-- A slot gets a name that is new in its directory. -/
theorem Sound.unique_enter (h : Sound t x) {t' : Tree}
    (hent : t'.ent = update t.ent (d, j) (some (i, nm)))
    (hfresh : ∀ j' i', t.ent (d, j') ≠ some (i', nm)) (d' a b k k' : ℕ) (nm' : Name)
    (ha : t'.ent (d', a) = some (k, nm')) (hb : t'.ent (d', b) = some (k', nm')) : a = b := by
  rw [hent] at ha hb
  by_cases ha' : (d', a) = (d, j) <;> by_cases hb' : (d', b) = (d, j)
  · exact ((Prod.mk.inj ha').2).trans ((Prod.mk.inj hb').2).symm
  · rw [ha', update_self] at ha
    rw [update_of_ne hb', (Prod.mk.inj ha').1] at hb
    cases ha
    exact absurd hb (hfresh b k')
  · rw [hb', update_self] at hb
    rw [update_of_ne ha', (Prod.mk.inj hb').1] at ha
    cases hb
    exact absurd ha (hfresh a k)
  · rw [update_of_ne ha'] at ha
    rw [update_of_ne hb'] at hb
    exact h.unique d' a b k k' nm' ha hb

/-- An entry for a file, or for a directory that has none. -/
theorem Sound.add (h : Sound t x) (hd : t d = some nd) (hdir : nd.type = SFS_TYPE_DIR)
    (hrem : nd.removed = false) (href : 0 < nd.ref) (hempty : t.ent (d, j) = none)
    (hfresh : ∀ j' i', t.ent (d, j') ≠ some (i', nm)) (hcap : max nd.blocks (j + 1) < 2 ^ 32)
    (hi : t i = some ni) (hirem : ni.removed = false) (hiref : 0 < ni.ref) (hroot : i ≠ SFS_BLKN_ROOT)
    {dir : Bool} (hx : x = if dir then some i else none)
    (hkind : dir = true ↔ ni.type = SFS_TYPE_DIR) : Sound (t.add d j i nm dir) none := by
  generalize hg : (fun (k : ℕ) (n : Node) => ({ n with
    nlinks := (n.nlinks + (if k = i then 1 else 0) + (if k = d ∧ dir then 1 else 0)) % 65536
    parent := if k = i ∧ dir then d else n.parent
    info := if k = d then (n.info + 1) % 2 ^ 32 else n.info
    blocks := if k = d then max n.blocks (j + 1) else n.blocks
    ents := if k = d then update n.ents j (some (i, nm)) else n.ents } : Node)) = g
  have ht : t.add d j i nm dir = fun k => (t k).map (g k) := by rw [← hg]; rfl
  have hent : (t.add d j i nm dir).ent = update t.ent (d, j) (some (i, nm)) := ent_add (Tree.has_of hd)
  have hisDir : (t.add d j i nm dir).isDir = t.isDir := isDir_add
  have hhas : ∀ k, (t.add d j i nm dir).has k ↔ t.has k := fun k => has_map ht
  have hnode : ∀ k n', t.add d j i nm dir k = some n' ↔ ∃ n, t k = some n ∧ n' = g k n := fun k n' => by
    rw [ht]
    exact map_some
  have hdirs : t.isDir i ↔ dir = true := by rw [Sound.isDir_iff hi, hkind]
  have htotal : ∀ k, (t.add d j i nm dir).total k =
      t.total k + (if k = i then 1 else 0) + (if k = d ∧ dir then 1 else 0) :=
    total_add h.finite ⟨nd, hd, hdir⟩ hempty hdirs
  have hother : ∀ p, p ≠ (d, j) → (t.add d j i nm dir).ent p = t.ent p := fun p hp => by
    rw [hent]
    exact update_of_ne hp ..
  have hnew : (t.add d j i nm dir).ent (d, j) = some (i, nm) := by
    rw [hent]
    exact update_self ..
  refine ⟨?_, ?_, fun k n' m hk hm => ?_, fun p k nm' hp => ?_, h.unique_enter hent hfresh,
    fun k n' hk hkt => ?_, fun k n' hk hkr => ?_, fun k n' hk hkr => ?_,
    fun k n' hk hkt hkr hkroot _ => ?_, fun k p p' nm₁ nm₂ hk hp hp' => ?_, nofun,
    fun k n' hk hbig => ?_⟩
  · obtain ⟨n, hn, h1, h2, h3⟩ := h.root
    refine ⟨g SFS_BLKN_ROOT n, (hnode _ _).mpr ⟨n, hn, rfl⟩, ?_⟩
    rw [← hg]
    exact ⟨h1, h2, (if_neg fun hc => hroot hc.1.symm).trans h3⟩
  · rw [hent]
    exact finite_update (P := (· ≠ none)) (d, j) _ h.finite
  · obtain ⟨n, hn, rfl⟩ := (hnode _ _).mp hk
    rw [← hg] at hm ⊢
    dsimp only at hm ⊢
    by_cases hkd : k = d
    · subst hkd
      rw [hd] at hn
      cases hn
      rw [if_pos rfl] at hm ⊢
      refine ⟨hdir, ?_⟩
      by_cases hmj : m = j
      · omega
      · rw [update_of_ne hmj] at hm
        have := (h.inside k nd m hd hm).2
        omega
    · rw [if_neg hkd] at hm ⊢
      exact h.inside k n m hn hm
  · rw [hhas]
    by_cases hpd : p = (d, j)
    · rw [hpd, hnew] at hp
      cases hp
      exact ⟨Tree.has_of hi, hroot⟩
    · rw [hother p hpd] at hp
      exact h.target p k nm' hp
  · obtain ⟨n, hn, rfl⟩ := (hnode _ _).mp hk
    have hkt' : n.type = SFS_TYPE_DIR := by rw [← hg] at hkt; exact hkt
    have hold := h.slots k n hn hkt'
    rw [← hg, row_update hent]
    dsimp only
    by_cases hkd : k = d
    · subst hkd
      rw [hd] at hn
      cases hn
      have hocc := occ_update (P := (· ≠ none)) j (some (i, nm))
        (finite_row (P := (· ≠ none)) h.finite k fun _ => id)
      have hzero : t.row k j = none := hempty
      simp only [hzero, ne_eq, not_true_eq_false, if_false, reduceCtorEq, not_false_eq_true, if_true,
        Nat.add_zero] at hocc
      rw [if_pos rfl, if_pos rfl, hold]
      have hle := h.count_lt hd hempty
      rw [Nat.mod_eq_of_lt (by omega)]
      exact hocc.symm
    · rw [if_neg hkd, if_neg hkd]
      exact hold
  · obtain ⟨n, hn, rfl⟩ := (hnode _ _).mp hk
    have hkr' : n.removed = false := by rw [← hg] at hkr; exact hkr
    have hold := h.links k n hn hkr'
    rw [htotal, ← hg]
    dsimp only
    rw [hold]
    omega
  · obtain ⟨n, hn, rfl⟩ := (hnode _ _).mp hk
    have hkr' : n.removed = true := by rw [← hg] at hkr; exact hkr
    obtain ⟨h1, h2, h3, h4⟩ := h.gone k n hn hkr'
    have hki : k ≠ i := by
      rintro rfl
      rw [hi] at hn
      cases hn
      rw [hirem] at hkr'
      cases hkr'
    have hkd : k ≠ d := by
      rintro rfl
      rw [hd] at hn
      cases hn
      rw [hrem] at hkr'
      cases hkr'
    rw [← hg]
    dsimp only
    simp only [hki, hkd, if_false, false_and, Nat.add_zero, h2]
    refine ⟨h1, trivial, h3, fun p nm' hp => ?_⟩
    by_cases hpd : p = (d, j)
    · rw [hpd, hnew] at hp
      cases hp
      exact hki rfl
    · rw [hother p hpd] at hp
      exact h4 p nm' hp
  · obtain ⟨n, hn, rfl⟩ := (hnode _ _).mp hk
    rw [← hg] at hkt hkr ⊢
    dsimp only at hkt hkr ⊢
    by_cases hki : k = i
    · subst hki
      have hdt : dir = true := hdirs.mp ⟨n, hn, hkt⟩
      rw [if_pos ⟨rfl, hdt⟩]
      exact ⟨j, nm, hnew⟩
    · have hxk : x ≠ some k := by
        rw [hx]
        split
        · exact fun he => hki (Option.some.inj he).symm
        · nofun
      rw [if_neg fun hc => hki hc.1]
      obtain ⟨m, nm', hm⟩ := h.holder k n hn hkt hkr hkroot hxk
      refine ⟨m, nm', ?_⟩
      rw [hother]
      · exact hm
      · intro he
        rw [he, hempty] at hm
        cases hm
  · rw [hisDir] at hk
    -- a directory that gets an entry had none
    have hloose : k = i → ∀ q nm', t.ent q ≠ some (k, nm') := fun hki => by
      rw [hki] at hk ⊢
      refine (h.loose i ?_).2.2
      rw [hx, if_pos (hdirs.mp hk)]
    by_cases hp₁ : p = (d, j) <;> by_cases hp₂ : p' = (d, j)
    · exact hp₁.trans hp₂.symm
    · rw [hp₁, hnew] at hp
      rw [hother p' hp₂] at hp'
      cases hp
      exact absurd hp' (hloose rfl p' nm₂)
    · rw [hp₂, hnew] at hp'
      rw [hother p hp₁] at hp
      cases hp'
      exact absurd hp (hloose rfl p nm₁)
    · rw [hother p hp₁] at hp
      rw [hother p' hp₂] at hp'
      exact h.once k p p' nm₁ nm₂ hk hp hp'
  · obtain ⟨n, hn, rfl⟩ := (hnode _ _).mp hk
    rw [← hg]
    show 0 < n.ref
    by_cases hki : k = i
    · subst hki
      rw [hi] at hn
      cases hn
      exact hiref
    · by_cases hkd : k = d
      · subst hkd
        rw [hd] at hn
        cases hn
        exact href
      · refine h.big k n hn ?_
        rw [htotal] at hbig
        simpa [hki, hkd] using hbig

/-- An entry is deleted: a file loses a link, a directory is without an entry. -/
theorem Sound.del (h : Sound t none) (he : t.ent (d, j) = some (i, nm)) (hi : t i = some ni)
    {dir : Bool} (hkind : dir = true ↔ ni.type = SFS_TYPE_DIR)
    (hlinks : ∀ k n, t k = some n →
      (if k = i then 1 else 0) + (if k = d ∧ dir then 1 else 0) ≤ n.nlinks) :
    Sound (t.del d j i dir) (if dir then some i else none) := by
  generalize hg : (fun (k : ℕ) (n : Node) => ({ n with
    nlinks := n.nlinks - (if k = i then 1 else 0) - (if k = d ∧ dir then 1 else 0)
    info := if k = d then n.info - 1 else n.info
    ents := if k = d then update n.ents j none else n.ents } : Node)) = g
  have ht : t.del d j i dir = fun k => (t k).map (g k) := by rw [← hg]; rfl
  obtain ⟨nd, hd, hne⟩ : ∃ nd, t d = some nd ∧ nd.ents j = some (i, nm) := by
    unfold ent at he
    cases hd : t d with
    | none => rw [hd] at he; cases he
    | some nd => exact ⟨nd, rfl, by rw [hd] at he; exact he⟩
  have hdir : nd.type = SFS_TYPE_DIR := (h.inside d nd j hd (by rw [hne]; simp)).1
  have hent : (t.del d j i dir).ent = update t.ent (d, j) none := ent_del (Tree.has_of hd)
  have hisDir : (t.del d j i dir).isDir = t.isDir := isDir_del
  have hhas : ∀ k, (t.del d j i dir).has k ↔ t.has k := fun k => has_map ht
  have hnode : ∀ k n', t.del d j i dir k = some n' ↔ ∃ n, t k = some n ∧ n' = g k n := fun k n' => by
    rw [ht]
    exact map_some
  have hdirs : t.isDir i ↔ dir = true := by rw [Sound.isDir_iff hi, hkind]
  have htotal := total_del h.finite ⟨nd, hd, hdir⟩ he hdirs
  -- the entries that are left were there before
  have hold : ∀ p k nm', (t.del d j i dir).ent p = some (k, nm') → p ≠ (d, j) ∧ t.ent p = some (k, nm') := by
    intro p k nm' hp
    rw [hent] at hp
    by_cases hpd : p = (d, j)
    · rw [hpd, update_self] at hp
      cases hp
    · rw [update_of_ne hpd] at hp
      exact ⟨hpd, hp⟩
  refine ⟨?_, ?_, fun k n' m hk hm => ?_, fun p k nm' hp => ?_, fun d' a b k k' nm' ha hb => ?_,
    fun k n' hk hkt => ?_, fun k n' hk hkr => ?_, fun k n' hk hkr => ?_,
    fun k n' hk hkt hkr hkroot hx => ?_, fun k p p' nm₁ nm₂ hk hp hp' => ?_, fun k hk => ?_,
    fun k n' hk hbig => ?_⟩
  · obtain ⟨n, hn, h1, h2, h3⟩ := h.root
    refine ⟨g SFS_BLKN_ROOT n, (hnode _ _).mpr ⟨n, hn, rfl⟩, ?_⟩
    rw [← hg]
    exact ⟨h1, h2, h3⟩
  · rw [hent]
    exact finite_update (P := (· ≠ none)) (d, j) _ h.finite
  · obtain ⟨n, hn, rfl⟩ := (hnode _ _).mp hk
    rw [← hg] at hm ⊢
    dsimp only at hm ⊢
    refine h.inside k n m hn ?_
    split at hm
    · by_cases hmj : m = j
      · rw [hmj, update_self] at hm
        exact absurd rfl hm
      · rwa [update_of_ne hmj] at hm
    · exact hm
  · rw [hhas]
    exact h.target p k nm' (hold p k nm' hp).2
  · exact h.unique d' a b k k' nm' (hold _ _ _ ha).2 (hold _ _ _ hb).2
  · obtain ⟨n, hn, rfl⟩ := (hnode _ _).mp hk
    have hkt' : n.type = SFS_TYPE_DIR := by rw [← hg] at hkt; exact hkt
    have hslots := h.slots k n hn hkt'
    rw [← hg, row_update hent]
    dsimp only
    by_cases hkd : k = d
    · subst hkd
      have hocc := occ_update (P := (· ≠ none)) j none
        (finite_row (P := (· ≠ none)) h.finite k fun _ => id)
      have hfull : t.row k j = some (i, nm) := he
      simp only [hfull, ne_eq, not_true_eq_false, if_false, reduceCtorEq, not_false_eq_true, if_true,
        Nat.add_zero] at hocc
      rw [if_pos rfl, if_pos rfl, hslots]
      exact Nat.sub_eq_of_eq_add hocc.symm
    · rw [if_neg hkd, if_neg hkd]
      exact hslots
  · obtain ⟨n, hn, rfl⟩ := (hnode _ _).mp hk
    have hkr' : n.removed = false := by rw [← hg] at hkr; exact hkr
    have hl := h.links k n hn hkr'
    have hle := hlinks k n hn
    rw [← htotal k] at hl
    rw [← hg]
    dsimp only
    omega
  · obtain ⟨n, hn, rfl⟩ := (hnode _ _).mp hk
    have hkr' : n.removed = true := by rw [← hg] at hkr; exact hkr
    obtain ⟨h1, h2, h3, h4⟩ := h.gone k n hn hkr'
    rw [← hg]
    dsimp only
    refine ⟨h1, by omega, fun m => ?_, fun p nm' hp => h4 p nm' (hold p k nm' hp).2⟩
    split
    · by_cases hmj : m = j
      · rw [hmj, update_self]
      · rw [update_of_ne hmj]
        exact h3 m
    · exact h3 m
  · obtain ⟨n, hn, rfl⟩ := (hnode _ _).mp hk
    rw [← hg] at hkt hkr ⊢
    dsimp only at hkt hkr ⊢
    obtain ⟨m, nm', hm⟩ := h.holder k n hn hkt hkr hkroot nofun
    -- the entry that is deleted was that of another node
    have hki : k ≠ i := by
      rintro rfl
      rw [if_pos (hdirs.mp ⟨n, hn, hkt⟩)] at hx
      exact hx rfl
    refine ⟨m, nm', ?_⟩
    rw [hent, update_of_ne]
    · exact hm
    · intro hpd
      rw [hpd, he] at hm
      cases hm
      exact hki rfl
  · rw [hisDir] at hk
    exact h.once k p p' nm₁ nm₂ hk (hold _ _ _ hp).2 (hold _ _ _ hp').2
  · obtain ⟨hdt, hki⟩ : dir = true ∧ i = k := by
      split at hk
      · exact ⟨‹_›, Option.some.inj hk⟩
      · cases hk
    subst hki
    have hrem : ni.removed = false := by
      cases hr : ni.removed with
      | false => rfl
      | true => exact absurd he ((h.gone i ni hi hr).2.2.2 (d, j) nm)
    refine ⟨(h.target _ _ _ he).2, ⟨g i ni, (hnode _ _).mpr ⟨ni, hi, rfl⟩, ?_⟩, fun p nm' hp => ?_⟩
    · rw [← hg]
      exact ⟨hkind.mp hdt, hrem⟩
    · obtain ⟨hpd, hp'⟩ := hold _ _ _ hp
      exact hpd (h.once i p (d, j) nm' nm (hdirs.mpr hdt) hp' he)
  · obtain ⟨n, hn, rfl⟩ := (hnode _ _).mp hk
    rw [← hg]
    refine h.big k n hn ?_
    have := htotal k
    omega

/-- An entry gets another name. -/
theorem Sound.put (h : Sound t none) (he : t.ent (d, j) = some (i, nm)) {nm' : Name}
    (hfresh : ∀ j' i', t.ent (d, j') ≠ some (i', nm')) : Sound (t.put d j i nm') none := by
  obtain ⟨nd, hd, hne⟩ : ∃ nd, t d = some nd ∧ nd.ents j = some (i, nm) := by
    unfold ent at he
    cases hd : t d with
    | none => rw [hd] at he; cases he
    | some nd => exact ⟨nd, rfl, by rw [hd] at he; exact he⟩
  obtain ⟨hdir, hlt⟩ := h.inside d nd j hd (by rw [hne]; simp)
  have hent : (t.put d j i nm').ent = update t.ent (d, j) (some (i, nm')) :=
    ent_edit_slot (Tree.has_of hd) fun _ _ => rfl
  have hisDir : (t.put d j i nm').isDir = t.isDir := isDir_edit fun _ _ => rfl
  have htotal := total_rename h.finite he hent hisDir ⟨nd, hd, hdir⟩
  have hnew : (t.put d j i nm').ent (d, j) = some (i, nm') := by
    rw [hent]
    exact update_self ..
  have hother : ∀ p, p ≠ (d, j) → (t.put d j i nm').ent p = t.ent p := fun p hp => by
    rw [hent]
    exact update_of_ne hp ..
  -- every entry names what it named before
  have hold : ∀ p k nm₁, (t.put d j i nm').ent p = some (k, nm₁) → ∃ nm₂, t.ent p = some (k, nm₂) := by
    intro p k nm₁ hp
    by_cases hpd : p = (d, j)
    · rw [hpd, hnew] at hp
      cases hp
      exact ⟨nm, hpd ▸ he⟩
    · rw [hother p hpd] at hp
      exact ⟨nm₁, hp⟩
  have hrow : ∀ k, occ ((t.put d j i nm').row k) (· ≠ none) = occ (t.row k) (· ≠ none) := by
    intro k
    rw [row_update hent]
    split
    · rename_i hk
      subst hk
      have hocc := occ_update (P := (· ≠ none)) j (some (i, nm'))
        (finite_row (P := (· ≠ none)) h.finite k fun _ => id)
      have hfull : t.row k j = some (i, nm) := he
      simp only [hfull, ne_eq, reduceCtorEq, not_false_eq_true, if_true] at hocc
      exact Nat.add_right_cancel hocc
    · rfl
  have hsame : ∀ k n', t.put d j i nm' k = some n' → ∃ n, t k = some n ∧ n'.type = n.type ∧
      n'.nlinks = n.nlinks ∧ n'.info = n.info ∧ n'.parent = n.parent ∧ n'.blocks = n.blocks ∧
      n'.removed = n.removed ∧ n'.ref = n.ref ∧
      n'.ents = if k = d then update n.ents j (some (i, nm')) else n.ents := by
    intro k n' hk
    obtain ⟨n, hn, rfl⟩ := edit_some.mp hk
    refine ⟨n, hn, ?_⟩
    split <;> exact ⟨rfl, rfl, rfl, rfl, rfl, rfl, rfl, rfl⟩
  refine ⟨?_, ?_, fun k n' m hk hm => ?_, fun p k nm₁ hp => ?_, h.unique_enter hent hfresh,
    fun k n' hk hkt => ?_, fun k n' hk hkr => ?_, fun k n' hk hkr => ?_,
    fun k n' hk hkt hkr hkroot _ => ?_, fun k p p' nm₁ nm₂ hk hp hp' => ?_, nofun,
    fun k n' hk hbig => ?_⟩
  · obtain ⟨n, hn, h1, h2, h3⟩ := h.root
    refine ⟨_, edit_some.mpr ⟨n, hn, rfl⟩, ?_⟩
    split <;> exact ⟨h1, h2, h3⟩
  · rw [hent]
    exact finite_update (P := (· ≠ none)) (d, j) _ h.finite
  · obtain ⟨n, hn, h1, -, -, -, h5, -, -, h8⟩ := hsame k n' hk
    rw [h1, h5]
    rw [h8] at hm
    split at hm
    · rename_i hkd
      by_cases hmj : m = j
      · subst hkd
        rw [hd] at hn
        cases hn
        exact ⟨hdir, hmj ▸ hlt⟩
      · rw [update_of_ne hmj] at hm
        exact h.inside k n m hn hm
    · exact h.inside k n m hn hm
  · obtain ⟨nm₂, hp'⟩ := hold p k nm₁ hp
    unfold Tree.put
    rw [has_edit]
    exact h.target p k nm₂ hp'
  · obtain ⟨n, hn, h1, -, h3, -⟩ := hsame k n' hk
    rw [h3, hrow]
    exact h.slots k n hn (h1 ▸ hkt)
  · obtain ⟨n, hn, -, h2, -, -, -, h6, -⟩ := hsame k n' hk
    rw [h2, htotal]
    exact h.links k n hn (h6 ▸ hkr)
  · obtain ⟨n, hn, h1, h2, -, -, -, h6, -, h8⟩ := hsame k n' hk
    obtain ⟨g1, g2, g3, g4⟩ := h.gone k n hn (h6 ▸ hkr)
    have hkd : k ≠ d := by
      rintro rfl
      rw [hd] at hn
      cases hn
      rw [g3 j] at hne
      cases hne
    rw [h1, h2, h8, if_neg hkd]
    refine ⟨g1, g2, g3, fun p nm₁ hp => ?_⟩
    obtain ⟨nm₂, hp'⟩ := hold p k nm₁ hp
    exact g4 p nm₂ hp'
  · obtain ⟨n, hn, h1, -, -, h4, -, h6, -⟩ := hsame k n' hk
    obtain ⟨m, nm₁, hm⟩ := h.holder k n hn (h1 ▸ hkt) (h6 ▸ hkr) hkroot nofun
    rw [h4]
    by_cases hp : (n.parent, m) = (d, j)
    · rw [hp, he] at hm
      cases hm
      rw [(Prod.mk.inj hp).1]
      exact ⟨j, nm', hnew⟩
    · exact ⟨m, nm₁, (hother _ hp).trans hm⟩
  · rw [hisDir] at hk
    obtain ⟨_, hq⟩ := hold p k nm₁ hp
    obtain ⟨_, hq'⟩ := hold p' k nm₂ hp'
    exact h.once k p p' _ _ hk hq hq'
  · obtain ⟨n, hn, -, -, -, -, -, -, h7, -⟩ := hsame k n' hk
    rw [h7]
    rw [htotal] at hbig
    exact h.big k n hn hbig

/-! ## One node -/

/-- What is true of one node. -/
structure Sits (t : Tree) (x : Option ℕ) (i : ℕ) (n : Node) : Prop where
  inside : ∀ j, n.ents j ≠ none → n.type = SFS_TYPE_DIR ∧ j < n.blocks
  slots : n.type = SFS_TYPE_DIR → n.info = occ (t.row i) (· ≠ none)
  links : n.removed = false → n.nlinks = t.total i % 65536
  gone : n.removed = true → n.type = SFS_TYPE_DIR ∧ n.nlinks = 0 ∧ (∀ j, n.ents j = none) ∧
    ∀ p nm, t.ent p ≠ some (i, nm)
  holder : n.type = SFS_TYPE_DIR → n.removed = false → i ≠ SFS_BLKN_ROOT → x ≠ some i →
    ∃ j nm, t.ent (n.parent, j) = some (i, nm)
  big : 65536 ≤ t.total i → 0 < n.ref

theorem isDir_update_of_ne {m : Option Node} {k : ℕ} (hk : k ≠ i) :
    Tree.isDir (update t i m) k ↔ t.isDir k := by
  unfold Tree.isDir
  rw [update_of_ne hk]

theorem row_congr {t' : Tree} (h : t'.ent = t.ent) : t'.row = t.row := by
  funext d j
  unfold row
  rw [h]

/-- One node changes, is new or is gone, and the table of entries is the same. -/
theorem Sound.renode (h : Sound t x) {m : Option Node} {x' : Option ℕ}
    (hent : Tree.ent (update t i m) = t.ent)
    (hnamed : ∀ p nm, t.ent p = some (i, nm) → ∃ n, m = some n ∧ (n.type = SFS_TYPE_DIR ↔ t.isDir i))
    (hroot : i = SFS_BLKN_ROOT → ∃ n, m = some n ∧ n.type = SFS_TYPE_DIR ∧ n.removed = false ∧
      n.parent = SFS_BLKN_ROOT)
    (hself : ∀ n, m = some n → Sits (update t i m) x' i n)
    (hx : ∀ k, k ≠ i → (x' = some k ↔ x = some k))
    (hloose : x' = some i → i ≠ SFS_BLKN_ROOT ∧ (∃ n, m = some n ∧ n.type = SFS_TYPE_DIR ∧ n.removed = false) ∧
      ∀ p nm, t.ent p ≠ some (i, nm)) : Sound (update t i m) x' := by
  have hat : update t i m i = m := update_self ..
  have hoff : ∀ k, k ≠ i → update t i m k = t k := fun k hk => update_of_ne hk ..
  have hdirs : ∀ k, (∃ p nm, t.ent p = some (k, nm)) → (Tree.isDir (update t i m) k ↔ t.isDir k) := by
    rintro k ⟨p, nm, he⟩
    by_cases hk : k = i
    · subst hk
      obtain ⟨n, rfl, htype⟩ := hnamed p nm he
      exact (Sound.isDir_iff hat).trans htype
    · exact isDir_update_of_ne hk
  have htotal : ∀ k, k ≠ i → Tree.total (update t i m) k = t.total k := fun k hk =>
    total_congr hent hdirs (isDir_update_of_ne hk)
  have hsits : ∀ k n, update t i m k = some n → Sits (update t i m) x' k n := by
    intro k n hn
    by_cases hk : k = i
    · subst hk
      exact hself n (hat ▸ hn)
    · rw [hoff k hk] at hn
      refine ⟨fun j => h.inside k n j hn, fun ht => ?_, fun hr => ?_, fun hr => ?_, fun ht hr hne hxk => ?_,
        fun hb => ?_⟩
      · rw [row_congr hent]
        exact h.slots k n hn ht
      · rw [htotal k hk]
        exact h.links k n hn hr
      · rw [hent]
        exact h.gone k n hn hr
      · rw [hent]
        exact h.holder k n hn ht hr hne fun he => hxk ((hx k hk).mpr he)
      · exact h.big k n hn (htotal k hk ▸ hb)
  refine ⟨?_, ?_, fun k n j hn => (hsits k n hn).inside j, fun p k nm hp => ?_, ?_,
    fun k n hn => (hsits k n hn).slots,
    fun k n hn => (hsits k n hn).links, fun k n hn => (hsits k n hn).gone, fun k n hn => (hsits k n hn).holder,
    fun k p p' nm nm' hd hp hp' => ?_, fun k hk => ?_, fun k n hn => (hsits k n hn).big⟩
  · by_cases hi : SFS_BLKN_ROOT = i
    · subst hi
      rw [hat]
      exact hroot rfl
    · rw [hoff _ hi]
      exact h.root
  · rw [hent]
    exact h.finite
  · rw [hent] at hp
    obtain ⟨h1, h2⟩ := h.target p k nm hp
    refine ⟨?_, h2⟩
    unfold Tree.has at h1 ⊢
    by_cases hk : k = i
    · subst hk
      obtain ⟨n, rfl, -⟩ := hnamed p nm hp
      rw [hat]
      nofun
    · rwa [hoff k hk]
  · rw [hent]
    exact h.unique
  · rw [hent] at hp hp'
    exact h.once k p p' nm nm' ((hdirs k ⟨p, nm, hp⟩).mp hd) hp hp'
  · rw [hent]
    by_cases hki : k = i
    · subst hki
      rw [hat]
      exact hloose hk
    · rw [hoff k hki]
      exact h.loose k ((hx k hki).mp hk)

/-- A node keeps its place in the tree: only its references change, or what a file has. -/
theorem Sound.touch (h : Sound t x) (hi : t i = some ni) {n' : Node} (htype : n'.type = ni.type)
    (hnlinks : n'.nlinks = ni.nlinks) (hparent : n'.parent = ni.parent)
    (hremoved : n'.removed = ni.removed) (hents : n'.ents = ni.ents)
    (hdir : ni.type = SFS_TYPE_DIR → n'.info = ni.info ∧ n'.blocks = ni.blocks)
    (href : 65536 ≤ t.total i → 0 < n'.ref) : Sound (update t i (some n')) x := by
  have hsame : ∀ n, t i = some n → ni = n := fun n hn => Option.some.inj (hi.symm.trans hn)
  have hent : Tree.ent (update t i (some n')) = t.ent := by
    rw [← edit_eq (f := fun _ => n') hi]
    exact ent_edit fun n hn => by rw [← hsame n hn, hents]
  have hisDir : Tree.isDir (update t i (some n')) = t.isDir := by
    rw [← edit_eq (f := fun _ => n') hi]
    exact isDir_edit fun n hn => by rw [← hsame n hn, htype]
  have htotal : Tree.total (update t i (some n')) i = t.total i :=
    total_congr hent (fun _ _ => by rw [hisDir]) (by rw [hisDir])
  refine h.renode hent (fun _ _ _ => ⟨n', rfl, ?_⟩) (fun hroot => ?_) (fun n hn => ?_)
    (fun _ _ => Iff.rfl) fun hx => ?_
  · rw [htype, Sound.isDir_iff hi]
  · obtain ⟨n, hn, h1, h2, h3⟩ := h.root
    obtain rfl := hsame n (hroot ▸ hn)
    exact ⟨n', rfl, htype.trans h1, hremoved.trans h2, hparent.trans h3⟩
  · cases hn
    refine ⟨fun j hj => ?_, fun ht => ?_, fun hr => ?_, fun hr => ?_, fun ht hr hne hx => ?_,
      fun hb => href (htotal ▸ hb)⟩
    · rw [hents] at hj
      obtain ⟨h1, h2⟩ := h.inside i ni j hi hj
      rw [htype, (hdir h1).2]
      exact ⟨h1, h2⟩
    · rw [htype] at ht
      rw [row_congr hent, (hdir ht).1]
      exact h.slots i ni hi ht
    · rw [htotal, hnlinks]
      exact h.links i ni hi (hremoved ▸ hr)
    · rw [hent, htype, hnlinks, hents]
      exact h.gone i ni hi (hremoved ▸ hr)
    · rw [hent, hparent]
      exact h.holder i ni hi (htype ▸ ht) (hremoved ▸ hr) hne hx
  · obtain ⟨h1, ⟨n, hn, h2, h3⟩, h4⟩ := h.loose i hx
    obtain rfl := hsame n hn
    exact ⟨h1, ⟨n', rfl, htype.trans h2, hremoved.trans h3⟩, h4⟩

/-- A directory that is without an entry and empty is flagged. -/
theorem Sound.remove (h : Sound t (some i)) (hi : t i = some ni) (hinfo : ni.info = 0) :
    Sound (t.remove i) none := by
  obtain ⟨hroot, ⟨n, hn, htype, hrem⟩, hunnamed⟩ := h.loose i rfl
  rw [hi] at hn
  cases hn
  have hent : (t.remove i).ent = t.ent := ent_edit fun _ _ => rfl
  have hisDir : (t.remove i).isDir = t.isDir := isDir_edit fun _ _ => rfl
  have htotal : (t.remove i).total i = t.total i := total_congr hent (fun _ _ => by rw [hisDir]) (by rw [hisDir])
  -- it has no entries and no subdirectories, so one link is left
  have hempty : ∀ j, t.row i j = none := by
    have hocc : occ (t.row i) (· ≠ none) = 0 := (h.slots i ni hi htype).symm.trans hinfo
    have := (occ_eq_zero (P := (· ≠ none)) (finite_row h.finite i fun _ => id)).mp hocc
    exact fun j => not_not.mp (this j)
  have hone : t.total i = 1 := by
    have hnames : t.names i = 0 := (occ_eq_zero (finite_names h.finite i)).mpr fun p hp => by
      obtain ⟨nm, he⟩ := hp
      exact hunnamed p nm he
    have hsubs : t.subs i = 0 :=
      (occ_eq_zero (finite_row h.finite i fun _ => NamesDir.ne_none)).mpr fun j hj => hj.ne_none (hempty j)
    unfold total own
    rw [hnames, hsubs, if_pos ⟨ni, hi, htype⟩, if_neg hroot]
  have hlink : ni.nlinks = 1 := by rw [h.links i ni hi hrem, hone]
  have hbare : ∀ j, ni.ents j = none := fun j => (ent_of hi j).symm.trans (hempty j)
  unfold Tree.remove at *
  rw [edit_eq hi] at *
  refine h.renode hent (fun p nm he => absurd he (hunnamed p nm)) (fun he => absurd he hroot) (fun n hn => ?_)
    (fun k hk => iff_of_false nofun fun he => hk (Option.some.inj he).symm) nofun
  cases hn
  refine ⟨fun j hj => absurd (hbare j) hj, fun _ => ?_, nofun, fun _ => ⟨htype, ?_, hbare, ?_⟩, nofun, fun hb => ?_⟩
  · rw [row_congr hent]
    exact h.slots i ni hi htype
  · show ni.nlinks - 1 = 0
    omega
  · rw [hent]
    exact hunnamed
  · rw [htotal, hone] at hb
    omega

/-- A node without entries has no part in the table. -/
theorem ent_update_bare {m : Option Node} (hold : ∀ n, t i = some n → ∀ j, n.ents j = none)
    (hnew : ∀ n, m = some n → ∀ j, n.ents j = none) : Tree.ent (update t i m) = t.ent := by
  funext p
  unfold Tree.ent
  by_cases hp : p.1 = i
  · rw [hp, update_self]
    have hl : m.bind (fun n => n.ents p.2) = none := by
      cases hm : m with
      | none => rfl
      | some n => exact hnew n hm p.2
    have hr : (t i).bind (fun n => n.ents p.2) = none := by
      cases hn : t i with
      | none => rfl
      | some n => exact hold n hn p.2
    rw [hl, hr]
  · rw [update_of_ne hp]

theorem Sound.unnamed (h : Sound t x) (hi : t i = none) (p : ℕ × ℕ) (nm : Name) : t.ent p ≠ some (i, nm) :=
  fun he => (h.target p i nm he).1 hi

/-- A new node has the links that it has without being named. -/
theorem Sound.total_insert (h : Sound t none) (hi : t i = none) {dir : Bool}
    (htype : dir = true ↔ ni.type = SFS_TYPE_DIR) (hents : ∀ j, ni.ents j = none) (k : ℕ) :
    Tree.total (update t i (some ni)) k = if k = i then (if dir then 1 else 0) else t.total k := by
  have hroot : i ≠ SFS_BLKN_ROOT := by
    rintro rfl
    obtain ⟨n, hn, -⟩ := h.root
    rw [hi] at hn
    cases hn
  have hent : Tree.ent (update t i (some ni)) = t.ent :=
    ent_update_bare (fun n hn => by rw [hi] at hn; cases hn) fun n hn => by cases hn; exact hents
  have hnamed : ∀ k, (∃ p nm, t.ent p = some (k, nm)) → k ≠ i := by
    rintro k ⟨p, nm, he⟩ rfl
    exact h.unnamed hi p nm he
  by_cases hk : k = i
  · rw [if_pos hk, hk]
    have hdir : Tree.isDir (update t i (some ni)) i ↔ dir = true :=
      (Sound.isDir_iff (update_self ..)).trans htype.symm
    have hnames : Tree.names (update t i (some ni)) i = 0 := by
      unfold Tree.names
      rw [hent]
      exact (occ_eq_zero (finite_names h.finite i)).mpr fun p hp => by
        obtain ⟨nm, he⟩ := hp
        exact h.unnamed hi p nm he
    have hsubs : Tree.subs (update t i (some ni)) i = 0 := by
      rw [subs_congr hent fun k hk => isDir_update_of_ne (hnamed k hk)]
      refine (occ_eq_zero (finite_row h.finite i fun _ => NamesDir.ne_none)).mpr fun j hj => ?_
      refine hj.ne_none ?_
      unfold row Tree.ent
      rw [hi]
      rfl
    unfold Tree.total Tree.own
    rw [hnames, hsubs, if_neg hroot, propext hdir, Nat.zero_add]
    split <;> rfl
  · rw [if_neg hk]
    exact total_congr hent (fun k' hk' => isDir_update_of_ne (hnamed k' hk')) (isDir_update_of_ne hk)

/-- A node that no entry names and that has none is added: a file without links, or a directory that is
to be given an entry. -/
theorem Sound.insert (h : Sound t none) (hi : t i = none) {dir : Bool}
    (htype : dir = true ↔ ni.type = SFS_TYPE_DIR) (hrem : ni.removed = false)
    (hnlinks : ni.nlinks = if dir then 1 else 0) (hents : ∀ j, ni.ents j = none) (hinfo : ni.info = 0) :
    Sound (update t i (some ni)) (if dir then some i else none) := by
  have hroot : i ≠ SFS_BLKN_ROOT := by
    rintro rfl
    obtain ⟨n, hn, -⟩ := h.root
    rw [hi] at hn
    cases hn
  have hunnamed := h.unnamed hi
  have hent : Tree.ent (update t i (some ni)) = t.ent :=
    ent_update_bare (fun n hn => by rw [hi] at hn; cases hn) fun n hn => by cases hn; exact hents
  have hone : Tree.total (update t i (some ni)) i = if dir then 1 else 0 :=
    (h.total_insert hi htype hents i).trans (if_pos rfl)
  have hflag : ∀ k, (if dir then some i else none) = some k ↔ dir = true ∧ i = k := fun k => by
    cases dir <;> simp
  refine h.renode hent (fun p nm he => absurd he (hunnamed p nm)) (fun he => absurd he hroot) (fun n hn => ?_)
    (fun k hk => iff_of_false (fun he => hk ((hflag k).mp he).2.symm) nofun) fun hd =>
      ⟨hroot, ⟨ni, rfl, htype.mp ((hflag i).mp hd).1, hrem⟩, hunnamed⟩
  cases hn
  refine ⟨fun j hj => absurd (hents j) hj, fun _ => ?_, fun _ => ?_, fun hr => absurd (hrem.symm.trans hr) nofun,
    fun ht _ _ hx => absurd ((hflag i).mpr ⟨htype.mpr ht, rfl⟩) hx, fun hb => ?_⟩
  · rw [row_congr hent, hinfo]
    refine ((occ_eq_zero (P := (· ≠ none)) (finite_row h.finite i fun _ => id)).mpr fun j => not_not.mpr ?_).symm
    unfold row Tree.ent
    rw [hi]
    rfl
  · rw [hone, hnlinks]
    split <;> rfl
  · rw [hone] at hb
    split at hb <;> omega

/-- A node that no entry names is gone: a file, or a directory that has been removed. -/
theorem Sound.erase (h : Sound t none) (hi : t i = some ni) (hunnamed : ∀ p nm, t.ent p ≠ some (i, nm))
    (hkind : ni.type ≠ SFS_TYPE_DIR ∨ ni.removed = true) : Sound (update t i none) none := by
  have hbare : ∀ j, ni.ents j = none := by
    rcases hkind with hk | hk
    · exact fun j => by
        by_contra hne
        exact hk (h.inside i ni j hi hne).1
    · exact (h.gone i ni hi hk).2.2.1
  refine h.renode (ent_update_bare (fun n hn => by rw [hi] at hn; cases hn; exact hbare) nofun)
    (fun p nm he => absurd he (hunnamed p nm)) (fun hroot => ?_) nofun (fun _ _ => Iff.rfl) nofun
  obtain ⟨n, hn, h1, h2, -⟩ := h.root
  rw [← hroot, hi] at hn
  cases hn
  rcases hkind with hk | hk
  · exact absurd h1 hk
  · exact nomatch h2.symm.trans hk

end Preserve

end Ucore.Sfs
