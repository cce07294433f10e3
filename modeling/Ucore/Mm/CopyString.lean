import Ucore.Lib.Bytes
import Ucore.Mm.UserMem

/-!
# `copy_string`

A string of user memory is checked and copied in chunks that end with a page or after `maxn` bytes, so
a chunk is checked beyond the NUL in it.  The VMAs consist of whole pages, and therefore the check of a
chunk says no more than that its first byte may be read.

* `copyString` — reference model of `copy_string` (`kern/mm/vmm.c`);
* `Inv.check_chunk` — the check of a chunk;
* `Inv.copyLoop_spec` — the loop, from any chunk on.

Principal result: `copy_string_exact` — when the function succeeds and what it has copied.
-/

namespace Ucore.Mm

open Bytes

/-- `strnlen`. -/
def strnlen (mem : ℕ → UInt8) (src : ℕ) : ℕ → ℕ
  | 0 => 0
  | n + 1 => if mem src = 0 then 0 else strnlen mem (src + 1) n + 1

/-- What a call has done: the bytes at `dst`, the chunks that `user_mem_check` has accepted and the
ranges of user memory that were read, as addresses and lengths. -/
structure Copy where
  dst : ℕ → UInt8
  checked : List (ℕ × ℕ)
  read : List (ℕ × ℕ)

namespace Copy

/-- A chunk passes the check. -/
def check (c : Copy) (src part : ℕ) : Copy := { c with checked := (src, part) :: c.checked }

/-- User memory is read by `strnlen`. -/
def scan (c : Copy) (src len : ℕ) : Copy := { c with read := (src, len) :: c.read }

/-- `memcpy(dst + off, src, len)`. -/
def memcpy (c : Copy) (mem : ℕ → UInt8) (off src len : ℕ) : Copy :=
  { c with dst := splice c.dst off len fun i => mem (src + i), read := (src, len) :: c.read }

end Copy

/-- The loop of `copy_string`; `off` is how far `dst` has moved. -/
def copyLoop (mem : ℕ → UInt8) : ℕ → ℕ → ℕ → ℕ → ℕ → Copy → Mm → Option (Bool × Copy × Mm)
  | 0, _, _, _, _, _, _ => none
  | fuel + 1, off, src, part, maxn, c, mm => do
    let part := if part > maxn then maxn else part
    let (ok, mm) ← mm.userMemCheck src part false
    if ¬ ok then some (false, c, mm)
    else
      let c := c.check src part
      let alen := strnlen mem src part
      if alen < part then some (true, (c.scan src (alen + 1)).memcpy mem off src (alen + 1), mm)
      else if part = maxn then some (false, c.scan src part, mm)
      else
        copyLoop mem fuel (off + part) (wadd src part) PGSIZE (maxn - part)
          ((c.scan src part).memcpy mem off src part) mm

/-- `copy_string`. -/
def copyString (mem : ℕ → UInt8) (src maxn : ℕ) (dst : ℕ → UInt8) (mm : Mm) :
    Option (Bool × Copy × Mm) :=
  let part := (rounddown (wadd src PGSIZE) + 2 ^ 32 - src) % 2 ^ 32
  copyLoop mem (maxn + 1) 0 src part maxn ⟨dst, [], []⟩ mm

/-! ## The first NUL -/

section String

variable {mem : ℕ → UInt8} {src part n k : ℕ}

/-- `src[k]` is the first NUL of the string. -/
def FirstNul (mem : ℕ → UInt8) (src k : ℕ) : Prop := mem (src + k) = 0 ∧ ∀ i < k, mem (src + i) ≠ 0

theorem FirstNul.unique {k' : ℕ} (h : FirstNul mem src k) (h' : FirstNul mem src k') : k = k' := by
  rcases Nat.lt_trichotomy k k' with hlt | heq | hlt
  · exact absurd h.1 (h'.2 k hlt)
  · exact heq
  · exact absurd h'.1 (h.2 k' hlt)

theorem strnlen_le : ∀ n src, strnlen mem src n ≤ n := by
  intro n
  induction n with
  | zero => exact fun _ => le_refl 0
  | succ n ih =>
    intro src
    unfold strnlen
    split
    · exact Nat.zero_le _
    · exact Nat.succ_le_succ (ih _)

/-- No byte before the place that `strnlen` returns is a NUL. -/
theorem strnlen_before : ∀ n src, ∀ i < strnlen mem src n, mem (src + i) ≠ 0 := by
  intro n
  induction n with
  | zero => exact fun _ i hi => absurd hi (Nat.not_lt_zero i)
  | succ n ih =>
    intro src i hi
    unfold strnlen at hi
    split at hi
    · exact absurd hi (Nat.not_lt_zero i)
    · rename_i h0
      cases i with
      | zero => exact h0
      | succ i =>
        have := ih (src + 1) i (Nat.lt_of_succ_lt_succ hi)
        rwa [show src + (i + 1) = src + 1 + i by omega]

theorem strnlen_at : ∀ n src, strnlen mem src n < n → mem (src + strnlen mem src n) = 0 := by
  intro n
  induction n with
  | zero => exact fun _ h => absurd h (Nat.not_lt_zero _)
  | succ n ih =>
    intro src h
    unfold strnlen at h ⊢
    split
    · rename_i h0
      exact h0
    · rename_i h0
      rw [if_neg h0] at h
      have := ih (src + 1) (Nat.lt_of_succ_lt_succ h)
      rwa [show src + (strnlen mem (src + 1) n + 1) = src + 1 + strnlen mem (src + 1) n by omega]

/-- `strnlen` stops early: there is the first NUL. -/
theorem firstNul_strnlen (h : strnlen mem src n < n) : FirstNul mem src (strnlen mem src n) :=
  ⟨strnlen_at n src h, strnlen_before n src⟩

/-- A string whose first `part` bytes are no NUL goes on behind them. -/
theorem firstNul_add (hno : ∀ i < part, mem (src + i) ≠ 0) :
    FirstNul mem src (part + k) ↔ FirstNul mem (src + part) k := by
  have hadd : ∀ i, src + (part + i) = src + part + i := fun i => (Nat.add_assoc ..).symm
  constructor
  · rintro ⟨h0, hbefore⟩
    refine ⟨by rw [← hadd]; exact h0, fun i hi => ?_⟩
    rw [← hadd]
    exact hbefore (part + i) (by omega)
  · rintro ⟨h0, hbefore⟩
    refine ⟨by rw [hadd]; exact h0, fun i hi => ?_⟩
    by_cases hp : i < part
    · exact hno i hp
    · have := hbefore (i - part) (by omega)
      rwa [← hadd, Nat.add_sub_cancel' (Nat.le_of_not_lt hp)] at this

theorem FirstNul.ge (h : FirstNul mem src k) (hno : ∀ i < part, mem (src + i) ≠ 0) : part ≤ k := by
  by_contra hlt
  exact hno k (Nat.lt_of_not_le hlt) h.1

end String

/-! ## The check of a chunk -/

variable {mm mm' : Mm} {start stop src part a : ℕ}

/-- The address is in a VMA that may be read. -/
def Readable (mm : Mm) (a : ℕ) : Prop :=
  ∃ v ∈ mm.mmapList, (mm.vma v).Has a ∧ (mm.vma v).vmFlags &&& VM_READ ≠ 0

theorem Readable.congr (hvma : mm'.vma = mm.vma) (hlist : mm'.mmapList = mm.mmapList) :
    mm'.Readable a ↔ mm.Readable a := by
  unfold Readable
  rw [hvma, hlist]

/-- The loop of `user_mem_check` passes a range whose bytes may all be read. -/
theorem Inv.userMemLoop_true : ∀ (fuel start : ℕ) (mm : Mm), Inv mm →
    (∀ a, start ≤ a → a < stop → mm.Readable a) → ∀ b mm',
    userMemLoop stop false fuel start mm = some (b, mm') → b = true := by
  intro fuel
  induction fuel with
  | zero => exact fun start mm _ _ b mm' hrun => nomatch hrun
  | succ fuel ih =>
    intro start mm h hall b mm' hrun
    unfold userMemLoop at hrun
    split at hrun
    · rename_i hlt
      obtain ⟨v, hv, hhas, hflag⟩ := hall start (le_refl _) hlt
      rw [h.findVma_spec, h.firstAbove_of_mem hv hhas.1 hhas.2] at hrun
      simp only [Option.bind_eq_bind, Option.bind_some] at hrun
      rw [touched_vmas, (h.member v hv).live, Option.bind_some, if_neg (Nat.not_lt.mpr hhas.1),
        if_neg (show ¬ _ &&& wantedFlag false = 0 from hflag), if_neg (by simp)] at hrun
      refine ih _ _ (h.touched start) (fun a hlo hhi => ?_) b mm' hrun
      exact (Readable.congr touched_vma touched_mmapList).mpr (hall a (hhas.2.le.trans hlo) hhi)
    · cases hrun
      rfl

/-- The bytes of a page may all be read or none. -/
theorem Inv.readable_page (h : Inv mm) {b : ℕ} (hpage : a / PGSIZE = b / PGSIZE)
    (ha : mm.Readable a) : mm.Readable b := by
  obtain ⟨v, hv, ⟨hstart, hend⟩, hflag⟩ := ha
  obtain ⟨i, hi⟩ := (h.member v hv).ok.startAligned
  obtain ⟨j, hj⟩ := (h.member v hv).ok.endAligned
  refine ⟨v, hv, ⟨?_, ?_⟩, hflag⟩
  · unfold PGSIZE at *
    omega
  · unfold PGSIZE at *
    omega

theorem Inv.readable_lt (h : Inv mm) (ha : mm.Readable a) : USERBASE ≤ a ∧ a < USERTOP := by
  obtain ⟨v, hv, hhas, -⟩ := ha
  exact ⟨(h.member v hv).ok.base.trans hhas.1, lt_of_lt_of_le hhas.2 (h.member v hv).ok.top⟩

/-- `user_mem_check` of a range inside of a page returns whether its first byte may be read. -/
theorem Inv.check_chunk (h : Inv mm) (hpart : 0 < part) (hpage : src % PGSIZE + part ≤ PGSIZE) :
    ∃ b mm', mm.userMemCheck src part false = some (b, mm') ∧ (b = true ↔ mm.Readable src) ∧
      (b = true → Inv mm' ∧ ∀ a, mm'.Readable a ↔ mm.Readable a) := by
  obtain ⟨b, mm', hrun⟩ := h.userMemCheck_total src part false
  have hlt : part < 2 ^ 32 := by
    unfold PGSIZE at hpage
    omega
  refine ⟨b, mm', hrun, ⟨?_, fun hsrc => ?_⟩, ?_⟩
  · rintro rfl
    obtain ⟨-, -, -, -, hall⟩ := h.userMemCheck_spec hlt hrun
    obtain ⟨v, hv, hhas, hflag, -⟩ := hall src (le_refl _) (by omega)
    exact ⟨v, hv, hhas, hflag⟩
  · have hall : ∀ a, src ≤ a → a < src + part → mm.Readable a := by
      intro a hlo hhi
      refine h.readable_page ?_ hsrc
      unfold PGSIZE at *
      omega
    have hfirst := h.readable_lt hsrc
    have hlast := h.readable_lt (hall (src + part - 1) (by omega) (by omega))
    have hsum : wadd src part = src + part := Nat.mod_eq_of_lt (by unfold USERTOP at hlast; omega)
    have haccess : USER_ACCESS src (src + part) := ⟨hfirst.1, by omega, by omega⟩
    unfold userMemCheck at hrun
    dsimp only at hrun
    rw [hsum, if_neg (not_not.mpr haccess)] at hrun
    exact Inv.userMemLoop_true _ _ _ h hall b mm' hrun
  · rintro rfl
    obtain ⟨hinv, hvma, hlist, -, -⟩ := h.userMemCheck_spec hlt hrun
    exact ⟨hinv, fun a => Readable.congr hvma hlist⟩

/-! ## The loop -/

section Loop

variable {mem : ℕ → UInt8} {off maxn fuel : ℕ} {c c' : Copy} {ok : Bool}

/-- The string that begins at `src` ends within `maxn` bytes, and may be read up to its end. -/
def HasString (mm : Mm) (mem : ℕ → UInt8) (src maxn : ℕ) : Prop :=
  ∃ k < maxn, FirstNul mem src k ∧ ∀ i ≤ k, mm.Readable (src + i)

/-- Every range that was read lies in a chunk that was checked, and such a chunk may be read. -/
structure Copy.Safe (c : Copy) (mm : Mm) : Prop where
  read : ∀ r ∈ c.read, ∃ p ∈ c.checked, p.1 ≤ r.1 ∧ r.1 + r.2 ≤ p.1 + p.2
  checked : ∀ p ∈ c.checked, ∀ a, p.1 ≤ a → a < p.1 + p.2 → mm.Readable a

/-- What the loop does from the chunk at `src` on, with `maxn` bytes left at `dst + off`. -/
structure Copied (mm : Mm) (mem : ℕ → UInt8) (off src maxn : ℕ) (c : Copy) (ok : Bool) (c' : Copy) :
    Prop where
  ok_iff : ok = true ↔ mm.HasString mem src maxn
  copied : ok = true → ∀ k, FirstNul mem src k → ∀ i,
    c'.dst i = if off ≤ i ∧ i ≤ off + k then mem (src + (i - off)) else c.dst i
  within : ∀ i, i < off ∨ off + maxn ≤ i → c'.dst i = c.dst i
  safe : c.Safe mm → c'.Safe mm

theorem Copied.refuse (hno : ¬ mm.HasString mem src maxn) (hdst : c'.dst = c.dst)
    (hsafe : c.Safe mm → c'.Safe mm) : Copied mm mem off src maxn c false c' := by
  refine ⟨⟨nofun, fun h => absurd h hno⟩, nofun, fun i _ => by rw [hdst], hsafe⟩

theorem Copy.Safe.check (h : c.Safe mm) (hall : ∀ a, src ≤ a → a < src + part → mm.Readable a) :
    (c.check src part).Safe mm := by
  refine ⟨fun r hr => ?_, fun p hp => ?_⟩
  · obtain ⟨p, hp, hin⟩ := h.read r hr
    exact ⟨p, List.mem_cons_of_mem _ hp, hin⟩
  · rcases List.mem_cons.mp hp with rfl | hp
    · exact hall
    · exact h.checked p hp

/-- A read inside of the chunk that was checked last. -/
theorem Copy.Safe.reads (h : (c.check src part).Safe mm) (hdst : c'.checked = (src, part) :: c.checked)
    (hread : ∀ r ∈ c'.read, r ∈ c.read ∨ (r.1 = src ∧ r.2 ≤ part)) : c'.Safe mm := by
  refine ⟨fun r hr => ?_, fun p hp => h.checked p (by rw [hdst] at hp; exact hp)⟩
  rw [hdst]
  rcases hread r hr with hr | ⟨hr, hle⟩
  · exact h.read r hr
  · exact ⟨(src, part), List.mem_cons_self, hr.ge, by dsimp only; omega⟩

/-- The checks change the cache of the VMAs only. -/
theorem Copied.congr (hsame : ∀ a, mm'.Readable a ↔ mm.Readable a)
    (h : Copied mm' mem off src maxn c ok c') : Copied mm mem off src maxn c ok c' := by
  refine ⟨h.ok_iff.trans ?_, h.copied, h.within, fun hc => ?_⟩
  · unfold HasString
    simp only [hsame]
  · have hsafe := h.safe ⟨hc.read, fun p hp a hlo hhi => (hsame a).mpr (hc.checked p hp a hlo hhi)⟩
    exact ⟨hsafe.read, fun p hp a hlo hhi => (hsame a).mp (hsafe.checked p hp a hlo hhi)⟩

/-- The loop goes on behind a chunk without NUL. -/
theorem Copied.step {part : ℕ} (hno : ∀ i < part, mem (src + i) ≠ 0) (hpart : part ≤ maxn)
    (hread : ∀ i < part, mm.Readable (src + i)) (hdst : c'.dst = splice c.dst off part fun i => mem (src + i))
    (hsafe : c.Safe mm → c'.Safe mm) {c₂ : Copy}
    (h : Copied mm mem (off + part) (src + part) (maxn - part) c' ok c₂) :
    Copied mm mem off src maxn c ok c₂ := by
  refine ⟨h.ok_iff.trans ⟨?_, ?_⟩, fun hok k hk i => ?_, fun i hi => ?_, fun hc => h.safe (hsafe hc)⟩
  · rintro ⟨k, hlt, hnul, hall⟩
    refine ⟨part + k, by omega, (firstNul_add hno).mpr hnul, fun i hi => ?_⟩
    by_cases hp : i < part
    · exact hread i hp
    · have := hall (i - part) (by omega)
      rwa [Nat.add_assoc, Nat.add_sub_cancel' (Nat.le_of_not_lt hp)] at this
  · rintro ⟨k, hlt, hnul, hall⟩
    obtain ⟨j, rfl⟩ := Nat.exists_eq_add_of_le (hnul.ge hno)
    refine ⟨j, by omega, (firstNul_add hno).mp hnul, fun i hi => ?_⟩
    rw [Nat.add_assoc]
    exact hall (part + i) (by omega)
  · obtain ⟨j, rfl⟩ := Nat.exists_eq_add_of_le (hk.ge hno)
    rw [h.copied hok j ((firstNul_add hno).mp hk) i, hdst]
    by_cases hlow : off ≤ i ∧ i < off + part
    · rw [if_neg (by omega), splice_of_mem hlow.1 hlow.2, if_pos (by omega)]
    · rw [splice_of_not_mem (by omega)]
      by_cases hin : off + part ≤ i ∧ i ≤ off + part + j
      · rw [if_pos hin, if_pos (by omega)]
        congr 1
        omega
      · rw [if_neg hin, if_neg (by omega)]
  · rw [h.within i (by omega), hdst, splice_of_not_mem (by omega)]

theorem Inv.copyLoop_spec : ∀ (fuel off src maxn : ℕ) (c : Copy) (mm : Mm), Inv mm → maxn < fuel →
    ∃ ok c' mm', copyLoop mem fuel off src (PGSIZE - src % PGSIZE) maxn c mm = some (ok, c', mm') ∧
      Copied mm mem off src maxn c ok c' := by
  intro fuel
  induction fuel with
  | zero => exact fun _ _ _ _ _ _ h => absurd h (Nat.not_lt_zero _)
  | succ fuel ih =>
    intro off src maxn c mm h hfuel
    have hmod : src % PGSIZE < PGSIZE := Nat.mod_lt _ (by decide)
    unfold copyLoop
    generalize hpart : (if PGSIZE - src % PGSIZE > maxn then maxn else PGSIZE - src % PGSIZE) = part
    dsimp only
    have hle : part ≤ maxn := by
      split at hpart <;> omega
    rcases Nat.eq_zero_or_pos maxn with rfl | hpos
    · -- the check refuses the empty range
      obtain rfl : part = 0 := by omega
      have hself : ¬ USER_ACCESS src (wadd src 0) := fun hacc => by
        have := hacc.2.1
        unfold wadd at this
        have := Nat.mod_le (src + 0) (2 ^ 32)
        omega
      have hcheck : mm.userMemCheck src 0 false = some (false, mm) := if_pos hself
      refine ⟨false, c, mm, by rw [hcheck]; rfl, .refuse ?_ rfl id⟩
      rintro ⟨k, hk, -⟩
      exact absurd hk (Nat.not_lt_zero k)
    have hpos' : 0 < part := by
      split at hpart <;> omega
    have hpage : src % PGSIZE + part ≤ PGSIZE := by
      split at hpart <;> omega
    obtain ⟨b, mm₁, hcheck, hb, hkept⟩ := h.check_chunk hpos' hpage
    rw [hcheck]
    simp only [Option.bind_eq_bind, Option.bind_some]
    cases b with
    | false =>
      refine ⟨false, c, mm₁, rfl, .refuse ?_ rfl id⟩
      rintro ⟨k, -, -, hall⟩
      exact absurd (hb.mpr (hall 0 (Nat.zero_le k))) (by decide)
    | true =>
      obtain ⟨hinv, hsame⟩ := hkept rfl
      have hsrc := hb.mp rfl
      have hread : ∀ a, src ≤ a → a < src + part → mm.Readable a := by
        intro a hlo hhi
        refine h.readable_page ?_ hsrc
        unfold PGSIZE at *
        omega
      rw [if_neg (by decide)]
      split
      · -- the NUL is in the chunk
        rename_i hlt
        have hnul := firstNul_strnlen hlt
        refine ⟨true, _, mm₁, rfl, ⟨fun _ => ?_, fun _ => rfl⟩, fun _ k hk i => ?_, fun i hi => ?_, fun hc => ?_⟩
        · exact ⟨_, lt_of_lt_of_le hlt hle, hnul, fun i hi => hread _ (by omega) (by omega)⟩
        · obtain rfl := hk.unique hnul
          show splice c.dst off (strnlen mem src part + 1) (fun i => mem (src + i)) i = _
          unfold splice
          exact if_congr (by omega) rfl rfl
        · show splice c.dst off (strnlen mem src part + 1) (fun i => mem (src + i)) i = _
          exact splice_of_not_mem (by omega)
        · refine (hc.check hread).reads rfl fun r hr => ?_
          rcases List.mem_cons.mp hr with rfl | hr
          · exact .inr ⟨rfl, hlt⟩
          rcases List.mem_cons.mp hr with rfl | hr
          · exact .inr ⟨rfl, hlt⟩
          · exact .inl hr
      rename_i hge
      have hall : strnlen mem src part = part :=
        le_antisymm (strnlen_le _ _) (Nat.le_of_not_lt hge)
      have hno : ∀ i < part, mem (src + i) ≠ 0 := fun i hi =>
        strnlen_before part src i (by omega)
      split
      · -- `maxn` bytes without a NUL
        rename_i hlast
        refine ⟨false, _, mm₁, rfl, .refuse ?_ rfl fun hc => ?_⟩
        · rintro ⟨k, hk, hnul, -⟩
          have := hnul.ge hno
          omega
        · refine (hc.check hread).reads rfl fun r hr => ?_
          rcases List.mem_cons.mp hr with rfl | hr
          · exact .inr ⟨rfl, le_refl _⟩
          · exact .inl hr
      · rename_i hmore
        have htop := (h.readable_lt (hread (src + part - 1) (by omega) (by omega))).2
        have hnext : wadd src part = src + part := Nat.mod_eq_of_lt (by unfold USERTOP at htop; omega)
        have hwhole : part = PGSIZE - src % PGSIZE := by
          split at hpart <;> omega
        have hpgsize : PGSIZE - (src + part) % PGSIZE = PGSIZE := by
          unfold PGSIZE at *
          omega
        obtain ⟨ok, c₂, mm₂, hrun, hdone⟩ := ih (off + part) (src + part) (maxn - part)
          (((c.check src part).scan src part).memcpy mem off src part) mm₁ hinv (by omega)
        rw [hpgsize] at hrun
        rw [hnext]
        refine ⟨ok, c₂, mm₂, hrun, .step hno hle (fun i hi => hread _ (by omega) (by omega)) rfl
          (fun hc => ?_) (hdone.congr hsame)⟩
        refine (hc.check hread).reads rfl fun r hr => ?_
        rcases List.mem_cons.mp hr with rfl | hr
        · exact .inr ⟨rfl, le_refl _⟩
        rcases List.mem_cons.mp hr with rfl | hr
        · exact .inr ⟨rfl, le_refl _⟩
        · exact .inl hr

end Loop

/-- **`copy_string`** returns, and it returns 1 iff a string begins at `src` that ends within `maxn`
bytes and may be read up to its NUL; then exactly the string is copied.  No more than `maxn` bytes of
`dst` are written, and what is read lies in chunks that passed the check. -/
theorem copy_string_exact (mm : Mm) (h : Inv mm) (mem : ℕ → UInt8) (src maxn : ℕ) (hsrc : src < 2 ^ 32)
    (dst : ℕ → UInt8) : ∃ ok c mm', copyString mem src maxn dst mm = some (ok, c, mm') ∧
      (ok = true ↔ ∃ k < maxn, FirstNul mem src k ∧ ∀ i ≤ k, mm.Readable (src + i)) ∧
      (ok = true → ∀ k, FirstNul mem src k →
        ∀ i, c.dst i = if i ≤ k then mem (src + i) else dst i) ∧
      (∀ i, maxn ≤ i → c.dst i = dst i) ∧
      (∀ r ∈ c.read, ∃ p ∈ c.checked, p.1 ≤ r.1 ∧ r.1 + r.2 ≤ p.1 + p.2) ∧
      ∀ p ∈ c.checked, ∀ a, p.1 ≤ a → a < p.1 + p.2 → mm.Readable a := by
  have hpart : (rounddown (wadd src PGSIZE) + 2 ^ 32 - src) % 2 ^ 32 = PGSIZE - src % PGSIZE := by
    unfold rounddown wadd PGSIZE
    omega
  obtain ⟨ok, c, mm', hrun, hdone⟩ : ∃ ok c mm', copyLoop mem (maxn + 1) 0 src (PGSIZE - src % PGSIZE)
      maxn ⟨dst, [], []⟩ mm = some (ok, c, mm') ∧ Copied mm mem 0 src maxn ⟨dst, [], []⟩ ok c :=
    Inv.copyLoop_spec _ _ _ _ _ mm h (Nat.lt_succ_self maxn)
  have hsafe := hdone.safe ⟨nofun, nofun⟩
  refine ⟨ok, c, mm', ?_, hdone.ok_iff, fun hok k hk i => ?_, fun i hi => ?_, hsafe.read, hsafe.checked⟩
  · unfold copyString
    rw [hpart]
    exact hrun
  · rw [hdone.copied hok k hk i]
    exact if_congr (by omega) (by rw [Nat.sub_zero]) rfl
  · exact hdone.within i (by omega)

/-- Three letters and a NUL, over the end of a page. -/
def twoPages (a : ℕ) : UInt8 := if a < USERTOP - PGSIZE + 1 then 65 else 0

/-- The string begins at the end of one page, and ends in the next one. -/
theorem copy_string_exact_pages : ∃ c mm', copyString twoPages (USERTOP - PGSIZE - 2) 8 (fun _ => 1) stackMm =
      some (true, c, mm') ∧ (List.range 8).map c.dst = [65, 65, 65, 0, 1, 1, 1, 1] := by
  have hnul : FirstNul twoPages (USERTOP - PGSIZE - 2) 3 := ⟨by decide, by decide⟩
  obtain ⟨ok, c, mm', hrun, hok, hcopied, -⟩ := copy_string_exact stackMm stackMm_inv twoPages
    (USERTOP - PGSIZE - 2) 8 (by decide) fun _ => 1
  have htrue : ok = true := hok.mpr ⟨3, by decide, hnul, fun i hi => ⟨0, List.mem_singleton_self 0, ?_, by decide⟩⟩
  · refine ⟨c, mm', htrue ▸ hrun, ?_⟩
    rw [List.map_congr_left fun i _ => hcopied htrue 3 hnul i]
    decide
  · show USERTOP - 256 * PGSIZE ≤ USERTOP - PGSIZE - 2 + i ∧ USERTOP - PGSIZE - 2 + i < USERTOP
    unfold USERTOP PGSIZE
    omega

end Ucore.Mm
