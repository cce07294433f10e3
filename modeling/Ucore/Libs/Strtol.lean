import Mathlib.Data.List.Forall2
import Mathlib.Data.Nat.Digits.Defs
import Mathlib.Tactic.Ring

/-!
# `strtol`

Reference model of `strtol` of `libs/string.c`.  A string is the list of the bytes before its `NUL`, a
pointer into it is the rest of the list, and a `long` wraps around.

* `Opens`, `Numeral`, `Syntax` — the syntax that the comment over `strtol` describes;
* `digitsLoop_spec` — the loop takes the longest numeral, and its value;
* `strtol_meets_iff` — `strtol` does what its comment says, unless it has to accept the prefix `0X`.
-/

namespace Ucore.Libs

/-- A character constant. -/
def chr (c : Char) : UInt8 := UInt8.ofNat c.toNat

/-- `while (*s == ' ' || *s == '\t') s++`. -/
def skipBlanks : List UInt8 → List UInt8
  | [] => []
  | c :: s => if c = chr ' ' ∨ c = chr '\t' then skipBlanks s else c :: s

/-- The sign: `neg`, and what follows. -/
def takeSign : List UInt8 → Bool × List UInt8
  | [] => (false, [])
  | c :: s => if c = chr '+' then (false, s) else if c = chr '-' then (true, s) else (false, c :: s)

/-- The prefix: the base, and what follows. -/
def takePrefix (base : ℕ) (s : List UInt8) : ℕ × List UInt8 :=
  if (base = 0 ∨ base = 16) ∧ s[0]? = some (chr '0') ∧ s[1]? = some (chr 'x') then (16, s.drop 2)
  else if base = 0 ∧ s[0]? = some (chr '0') then (8, s.drop 1)
  else if base = 0 then (10, s)
  else (base, s)

/-- `dig`; no digit ends the loop. -/
def digit (c : UInt8) : Option ℕ :=
  if chr '0' ≤ c ∧ c ≤ chr '9' then some (c - chr '0').toNat
  else if chr 'a' ≤ c ∧ c ≤ chr 'z' then some ((c - chr 'a').toNat + 10)
  else if chr 'A' ≤ c ∧ c ≤ chr 'Z' then some ((c - chr 'A').toNat + 10)
  else none

/-- The loop over the digits: `val`, and what follows. -/
def digitsLoop (base : ℕ) : List UInt8 → Int32 → Int32 × List UInt8
  | [], val => (val, [])
  | c :: s, val =>
    match digit c with
    | none => (val, c :: s)
    | some dig => if dig ≥ base then (val, c :: s) else digitsLoop base s (val * Int32.ofNat base + Int32.ofNat dig)

/-- `strtol`: the return value and `*endptr`. -/
def strtol (s : List UInt8) (base : ℕ) : Int32 × List UInt8 :=
  let (neg, s) := takeSign (skipBlanks s)
  let (base, s) := takePrefix base s
  let (val, s) := digitsLoop base s 0
  (if neg then -val else val, s)

/-! ## The syntax -/

/-- `c` is a digit or a letter, of either case, for the number `d`. -/
def Denotes (c : UInt8) (d : ℕ) : Prop :=
  d < 10 ∧ c.toNat = '0'.toNat + d ∨
    10 ≤ d ∧ d < 36 ∧ (c.toNat = 'a'.toNat + (d - 10) ∨ c.toNat = 'A'.toNat + (d - 10))

/-- Digits below the base. -/
structure Numeral (b : ℕ) (text : List UInt8) (ds : List ℕ) : Prop where
  denotes : List.Forall₂ Denotes text ds
  below : ∀ d ∈ ds, d < b

/-- Blanks and a sign, in front of `body`. -/
inductive Opens : List UInt8 → Bool → List UInt8 → Prop where
  | plus (body : List UInt8) : Opens (chr '+' :: body) false body
  | minus (body : List UInt8) : Opens (chr '-' :: body) true body
  | bare (body : List UInt8) (h : ∀ c, body.head? = some c → c ≠ chr '+' ∧ c ≠ chr '-' ∧ c ≠ chr ' ' ∧ c ≠ chr '\t') :
      Opens body false body
  | blank {c : UInt8} {s body : List UInt8} {neg : Bool} (hc : c = chr ' ' ∨ c = chr '\t') (h : Opens s neg body) :
      Opens (c :: s) neg body

/-- A text that is valid for `base`: a numeral in the base `b`, after the prefix for it. -/
inductive Syntax : ℕ → List UInt8 → ℕ → List ℕ → Prop where
  | plain {base : ℕ} {text : List UInt8} {ds : List ℕ} (hbase : 2 ≤ base) (h : Numeral base text ds) :
      Syntax base text base ds
  | hex {x : UInt8} {text : List UInt8} {ds : List ℕ} (hx : x = chr 'x' ∨ x = chr 'X') (h : Numeral 16 text ds) :
      Syntax 16 (chr '0' :: x :: text) 16 ds
  | autoHex {text : List UInt8} {ds : List ℕ} (h : Numeral 16 text ds) :
      Syntax 0 (chr '0' :: chr 'x' :: text) 16 ds
  | autoOctal {text : List UInt8} {ds : List ℕ} (h : Numeral 8 text ds) : Syntax 0 (chr '0' :: text) 8 ds
  | autoDecimal {text : List UInt8} {ds : List ℕ} (hhead : text.head? ≠ some (chr '0')) (h : Numeral 10 text ds) :
      Syntax 0 text 10 ds

/-- The result is what the comment says: `*endptr` is after the longest valid text, and the return value is the
number, with its sign. -/
def Meets (base : ℕ) (s : List UInt8) (r : Int32 × List UInt8) : Prop :=
  ∃ neg body text b ds, Opens s neg body ∧ body = text ++ r.2 ∧ Syntax base text b ds ∧
    (∀ text' b' ds', Syntax base text' b' ds' → text' <+: body → text'.length ≤ text.length) ∧
    r.1 = Int32.ofInt (if neg then -(Nat.ofDigits b ds.reverse : ℕ) else (Nat.ofDigits b ds.reverse : ℕ))

/-- The number has the prefix `0X`. -/
def UpperHex (s : List UInt8) : Prop := ∃ neg rest, Opens s neg (chr '0' :: chr 'X' :: rest)

/-! ## Blanks and the sign -/

section opens

variable {s body : List UInt8} {neg : Bool}

theorem takeSign_bare (h : ∀ c, body.head? = some c → c ≠ chr '+' ∧ c ≠ chr '-') : takeSign body = (false, body) := by
  cases body with
  | nil => rfl
  | cons c s =>
    obtain ⟨hplus, hminus⟩ := h c rfl
    simp [takeSign, hplus, hminus]

/-- The sign that `takeSign` finds. -/
theorem opens_takeSign (h : ∀ c, s.head? = some c → c ≠ chr ' ' ∧ c ≠ chr '\t') :
    Opens s (takeSign s).1 (takeSign s).2 := by
  cases s with
  | nil => exact .bare [] nofun
  | cons c s =>
    simp only [takeSign]
    split
    · rename_i hplus
      rw [hplus]
      exact .plus s
    split
    · rename_i hminus
      rw [hminus]
      exact .minus s
    · rename_i hplus hminus
      refine .bare (c :: s) fun c' hc' => ?_
      cases hc'
      exact ⟨hplus, hminus, h c rfl⟩

theorem opens_skipBlanks : ∀ s : List UInt8, Opens s (takeSign (skipBlanks s)).1 (takeSign (skipBlanks s)).2
  | [] => .bare [] nofun
  | c :: s => by
    unfold skipBlanks
    split
    · rename_i hc
      exact .blank hc (opens_skipBlanks s)
    · rename_i hc
      refine opens_takeSign fun c' hc' => ?_
      cases hc'
      exact not_or.mp hc

/-- Blanks and the sign are skipped in one way only. -/
theorem Opens.skip (h : Opens s neg body) : takeSign (skipBlanks s) = (neg, body) := by
  induction h with
  | plus body => rfl
  | minus body => rfl
  | bare body h =>
    have hskip : skipBlanks body = body := by
      cases body with
      | nil => rfl
      | cons c s =>
        obtain ⟨-, -, hblank, htab⟩ := h c rfl
        simp [skipBlanks, hblank, htab]
    rw [hskip]
    exact takeSign_bare fun c hc => ⟨(h c hc).1, (h c hc).2.1⟩
  | blank hc h ih =>
    unfold skipBlanks
    rw [if_pos hc]
    exact ih

end opens

/-! ## Digits -/

section digits

variable {b d n : ℕ} {c : UInt8} {s text text' rest : List UInt8} {ds ds' : List ℕ}

theorem digit_eq_some : digit c = some d ↔ Denotes c d := by
  have h0 : (chr '0').toNat = 48 := rfl
  have h9 : (chr '9').toNat = 57 := rfl
  have ha : (chr 'a').toNat = 97 := rfl
  have hz : (chr 'z').toNat = 122 := rfl
  have hA : (chr 'A').toNat = 65 := rfl
  have hZ : (chr 'Z').toNat = 90 := rfl
  have h0' : '0'.toNat = 48 := rfl
  have ha' : 'a'.toNat = 97 := rfl
  have hA' : 'A'.toNat = 65 := rfl
  unfold digit Denotes
  simp only [UInt8.le_iff_toNat_le, h0, h9, ha, hz, hA, hZ, h0', ha', hA']
  split
  · rename_i hc
    rw [UInt8.toNat_sub_of_le _ _ (UInt8.le_iff_toNat_le.mpr (by omega)), h0, Option.some.injEq]
    omega
  split
  · rename_i hc
    rw [UInt8.toNat_sub_of_le _ _ (UInt8.le_iff_toNat_le.mpr (by omega)), ha, Option.some.injEq]
    omega
  split
  · rename_i hc
    rw [UInt8.toNat_sub_of_le _ _ (UInt8.le_iff_toNat_le.mpr (by omega)), hA, Option.some.injEq]
    omega
  · simp only [reduceCtorEq, false_iff]
    omega

theorem Numeral.nil (b : ℕ) : Numeral b [] [] := ⟨.nil, nofun⟩

theorem Numeral.cons (hc : Denotes c d) (hd : d < b) (h : Numeral b text ds) : Numeral b (c :: text) (d :: ds) := by
  refine ⟨.cons hc h.denotes, fun e he => ?_⟩
  rcases List.mem_cons.mp he with rfl | he
  · exact hd
  · exact h.below e he

/-- The first character of a numeral is a digit. -/
theorem Numeral.head (h : Numeral b (c :: text) ds) : ∃ d, Denotes c d ∧ d < b := by
  obtain ⟨hden, hbelow⟩ := h
  cases hden with
  | cons hc _ => exact ⟨_, hc, hbelow _ List.mem_cons_self⟩

theorem Numeral.tail (h : Numeral b (c :: text) ds) : ∃ ds', Numeral b text ds' := by
  obtain ⟨hden, hbelow⟩ := h
  cases hden with
  | cons _ hrest => exact ⟨_, hrest, fun d hd => hbelow d (List.mem_cons_of_mem _ hd)⟩

/-- What follows does not start with a digit of the base. -/
def Stops (b : ℕ) (rest : List UInt8) : Prop := ∀ c d, rest.head? = some c → Denotes c d → b ≤ d

/-- A numeral before `rest` is the longest one. -/
theorem Stops.longest (hstop : Stops b rest) : ∀ {text text' : List UInt8} {ds' : List ℕ}, Numeral b text' ds' →
    text' <+: text ++ rest → text'.length ≤ text.length
  | _, [], _, _, _ => Nat.zero_le _
  | [], c :: text', ds', h, hp => by
    obtain ⟨d, hc, hd⟩ := h.head
    obtain ⟨t, ht⟩ := hp
    rw [List.nil_append] at ht
    have hle := hstop c d (by rw [← ht]; rfl) hc
    omega
  | a :: text, c :: text', ds', h, hp => by
    obtain ⟨es, htail⟩ := h.tail
    exact Nat.succ_le_succ (hstop.longest htail (List.cons_prefix_cons.mp hp).2)

/-- The value of a numeral grows from the left. -/
theorem ofDigits_reverse_cons (b d n : ℕ) (ds : List ℕ) :
    n * b ^ (d :: ds).length + Nat.ofDigits b (d :: ds).reverse =
    (n * b + d) * b ^ ds.length + Nat.ofDigits b ds.reverse := by
  rw [List.reverse_cons, Nat.ofDigits_append, Nat.ofDigits_singleton, List.length_reverse, List.length_cons]
  ring

/-- **The loop takes the longest numeral**, and its value. -/
theorem digitsLoop_spec (b : ℕ) : ∀ (s : List UInt8) (n : ℕ), ∃ text ds rest, s = text ++ rest ∧ Numeral b text ds ∧
    Stops b rest ∧ digitsLoop b s (Int32.ofNat n) =
      (Int32.ofNat (n * b ^ ds.length + Nat.ofDigits b ds.reverse), rest)
  | [], n => ⟨[], [], [], rfl, .nil b, nofun, by simp [digitsLoop]⟩
  | c :: s, n => by
    have hend : (∀ d, Denotes c d → b ≤ d) → digitsLoop b (c :: s) (Int32.ofNat n) = (Int32.ofNat n, c :: s) →
        ∃ text ds rest, c :: s = text ++ rest ∧ Numeral b text ds ∧ Stops b rest ∧
          digitsLoop b (c :: s) (Int32.ofNat n) =
            (Int32.ofNat (n * b ^ ds.length + Nat.ofDigits b ds.reverse), rest) := by
      intro hstop hrun
      refine ⟨[], [], c :: s, rfl, .nil b, fun c' d hc' => ?_, by simpa using hrun⟩
      cases hc'
      exact hstop d
    cases hdig : digit c with
    | none =>
      refine hend (fun d hd => ?_) (by simp [digitsLoop, hdig])
      rw [digit_eq_some.mpr hd] at hdig
      cases hdig
    | some d =>
      by_cases hge : d ≥ b
      · refine hend (fun d' hd' => ?_) (by simp [digitsLoop, hdig, hge])
        rw [digit_eq_some.mpr hd'] at hdig
        cases hdig
        exact hge
      · obtain ⟨text, ds, rest, hs, hnum, hstop, hrun⟩ := digitsLoop_spec b s (n * b + d)
        refine ⟨c :: text, d :: ds, rest, by rw [hs]; rfl, .cons (digit_eq_some.mp hdig) (Nat.lt_of_not_le hge) hnum,
          hstop, ?_⟩
        rw [ofDigits_reverse_cons, ← hrun]
        simp [digitsLoop, hdig, hge]

end digits

/-! ## The call -/

section call

variable {s body t : List UInt8} {neg : Bool} {base : ℕ} {r : Int32 × List UInt8}

theorem not_denotes_x {d : ℕ} {x : UInt8} (hx : x = chr 'x' ∨ x = chr 'X') (h : Denotes x d) : d = 33 := by
  have hnat : x.toNat = 120 ∨ x.toNat = 88 := by
    rcases hx with rfl | rfl
    · exact Or.inl rfl
    · exact Or.inr rfl
  have h0 : '0'.toNat = 48 := rfl
  have ha : 'a'.toNat = 97 := rfl
  have hA : 'A'.toNat = 65 := rfl
  unfold Denotes at h
  omega

/-- What `strtol` returns when `takePrefix` has found a base. -/
theorem strtol_eq (hopens : Opens s neg body) {b : ℕ} (hbase : takePrefix base body = (b, t)) :
    ∃ text ds rest, t = text ++ rest ∧ Numeral b text ds ∧ Stops b rest ∧ strtol s base =
      (Int32.ofInt (if neg then -(Nat.ofDigits b ds.reverse : ℕ) else (Nat.ofDigits b ds.reverse : ℕ)), rest) := by
  obtain ⟨text, ds, rest, ht, hnum, hstop, hloop⟩ := digitsLoop_spec b t 0
  refine ⟨text, ds, rest, ht, hnum, hstop, ?_⟩
  rw [Nat.zero_mul, Nat.zero_add] at hloop
  unfold strtol
  rw [hopens.skip]
  dsimp only
  rw [hbase]
  dsimp only
  have hzero : (0 : Int32) = Int32.ofNat 0 := rfl
  rw [hzero, hloop]
  cases neg with
  | false => rfl
  | true =>
    show (-(Int32.ofNat _), rest) = (Int32.ofInt (-(_ : ℕ)), rest)
    rw [← Int32.neg_ofInt]
    rfl

/-- Everything but the longest text is known. -/
theorem meets_of (pre : List UInt8) (hopens : Opens s neg body) {b : ℕ} (hbase : takePrefix base body = (b, t))
    (hbody : body = pre ++ t) (hform : ∀ text ds, Numeral b text ds → text <+: t → Syntax base (pre ++ text) b ds)
    (hlongest : ∀ text rest text' b' ds', t = text ++ rest → Stops b rest → Syntax base text' b' ds' →
      text' <+: body → text'.length ≤ (pre ++ text).length) : Meets base s (strtol s base) := by
  obtain ⟨text, ds, rest, ht, hnum, hstop, hrun⟩ := strtol_eq hopens hbase
  rw [hrun]
  refine ⟨neg, body, pre ++ text, b, ds, hopens, ?_, hform text ds hnum (ht ▸ List.prefix_append ..),
    fun text' b' ds' h hp => hlongest text rest text' b' ds' ht hstop h hp, rfl⟩
  rw [hbody, ht, List.append_assoc]

/-- A numeral after a prefix that `body` has. -/
theorem longest_after (pre : List UInt8) {b : ℕ} {text rest text' : List UInt8} {ds' : List ℕ} (ht : t = text ++ rest)
    (hstop : Stops b rest)
    (h : Numeral b text' ds') (hp : pre ++ text' <+: pre ++ t) : (pre ++ text').length ≤ (pre ++ text).length := by
  rw [List.length_append, List.length_append]
  refine Nat.add_le_add_left (hstop.longest h ?_) _
  rw [← ht]
  exact (List.prefix_append_right_inj pre).mp hp

/-- A numeral of a base up to 33 does not start with an `x`. -/
theorem Numeral.eq_nil {b : ℕ} {text : List UInt8} {ds : List ℕ} {x : UInt8} (h : Numeral b text ds) (hb : b ≤ 33)
    (hx : x = chr 'x' ∨ x = chr 'X') (hp : text <+: x :: t) : text = [] := by
  cases text with
  | nil => rfl
  | cons a text =>
    obtain ⟨d, hd, hlt⟩ := h.head
    obtain ⟨rfl, -⟩ := List.cons_prefix_cons.mp hp
    have h33 := not_denotes_x hx hd
    omega

theorem Numeral.length_le_one {b : ℕ} {text : List UInt8} {ds : List ℕ} {c x : UInt8} (h : Numeral b text ds)
    (hb : b ≤ 33)
    (hx : x = chr 'x' ∨ x = chr 'X') (hp : text <+: c :: x :: t) : text.length ≤ 1 := by
  cases text with
  | nil => exact Nat.zero_le 1
  | cons a text =>
    obtain ⟨es, htail⟩ := h.tail
    rw [htail.eq_nil hb hx (List.cons_prefix_cons.mp hp).2]
    rfl

/-- The prefix of a number, in each case. -/
theorem takePrefix_hex (hbase : base = 0 ∨ base = 16) : takePrefix base (chr '0' :: chr 'x' :: t) = (16, t) :=
  if_pos ⟨hbase, rfl, rfl⟩

theorem takePrefix_octal (hx : t.head? ≠ some (chr 'x')) : takePrefix 0 (chr '0' :: t) = (8, t) := by
  unfold takePrefix
  rw [if_neg (by simpa [List.head?_eq_getElem?] using hx), if_pos ⟨rfl, rfl⟩]
  rfl

theorem takePrefix_decimal (h0 : body.head? ≠ some (chr '0')) : takePrefix 0 body = (10, body) := by
  rw [List.head?_eq_getElem?] at h0
  unfold takePrefix
  rw [if_neg fun h => h0 h.2.1, if_neg fun h => h0 h.2, if_pos rfl]

theorem takePrefix_plain (h0 : base ≠ 0) (hx : base = 16 → ∀ t, body ≠ chr '0' :: chr 'x' :: t) :
    takePrefix base body = (base, body) := by
  unfold takePrefix
  rw [if_neg, if_neg fun h => h0 h.1, if_neg h0]
  rintro ⟨hbase, h1, h2⟩
  match body, h1, h2 with
  | a :: c :: t, h1, h2 =>
    cases h1
    cases h2
    exact hx (hbase.resolve_left h0) t rfl

theorem meets_hex (hopens : Opens s neg (chr '0' :: chr 'x' :: t)) (hbase : base = 0 ∨ base = 16) :
    Meets base s (strtol s base) := by
  refine meets_of [chr '0', chr 'x'] hopens (takePrefix_hex hbase) rfl (fun text ds hnum _ => ?_)
    fun text rest text' b' ds' ht hstop h hp => ?_
  · rcases hbase with rfl | rfl
    · exact .autoHex hnum
    · exact .hex (Or.inl rfl) hnum
  · cases h with
    | plain _ hnum =>
      have hle := hnum.length_le_one (by omega) (Or.inl rfl) hp
      simp
      omega
    | @hex x tail _ hx hnum =>
      obtain ⟨-, hp'⟩ := List.cons_prefix_cons.mp hp
      obtain ⟨rfl, -⟩ := List.cons_prefix_cons.mp hp'
      exact longest_after [chr '0', chr 'x'] ht hstop hnum hp
    | autoHex hnum => exact longest_after [chr '0', chr 'x'] ht hstop hnum hp
    | @autoOctal tail _ hnum =>
      obtain ⟨-, hp'⟩ := List.cons_prefix_cons.mp hp
      rw [hnum.eq_nil (by decide) (Or.inl rfl) hp']
      simp
    | autoDecimal hhead _ =>
      cases text' with
      | nil => exact Nat.zero_le _
      | cons a text' => exact absurd (congrArg some (List.cons_prefix_cons.mp hp).1) hhead

theorem meets_octal (hopens : Opens s neg (chr '0' :: t)) (hx : t.head? ≠ some (chr 'x')) :
    Meets 0 s (strtol s 0) := by
  refine meets_of [chr '0'] hopens (takePrefix_octal hx) rfl (fun text ds hnum _ => .autoOctal hnum)
    fun text rest text' b' ds' ht hstop h hp => ?_
  cases h with
  | plain hbase _ => omega
  | @autoHex tail _ hnum =>
    obtain ⟨-, u, hu⟩ := List.cons_prefix_cons.mp hp
    rw [← hu] at hx
    exact absurd rfl hx
  | autoOctal hnum => exact longest_after [chr '0'] ht hstop hnum hp
  | autoDecimal hhead _ =>
    cases text' with
    | nil => exact Nat.zero_le _
    | cons a text' => exact absurd (congrArg some (List.cons_prefix_cons.mp hp).1) hhead

theorem meets_decimal (hopens : Opens s neg body) (h0 : body.head? ≠ some (chr '0')) : Meets 0 s (strtol s 0) := by
  have hhead : ∀ {text : List UInt8}, text <+: body → text.head? ≠ some (chr '0') := by
    rintro text ⟨u, rfl⟩ hhead
    cases text with
    | nil => cases hhead
    | cons a text => exact h0 hhead
  refine meets_of [] hopens (takePrefix_decimal h0) rfl (fun text ds hnum hp => .autoDecimal (hhead hp) hnum)
    fun text rest text' b' ds' ht hstop h hp => ?_
  cases h with
  | plain hbase _ => omega
  | autoHex _ => exact absurd rfl (hhead hp)
  | autoOctal _ => exact absurd rfl (hhead hp)
  | autoDecimal _ hnum => exact longest_after [] ht hstop hnum hp

theorem meets_plain (hopens : Opens s neg body) (hbase : 2 ≤ base)
    (hx : base = 16 → ∀ x t, x = chr 'x' ∨ x = chr 'X' → body ≠ chr '0' :: x :: t) :
    Meets base s (strtol s base) := by
  refine meets_of [] hopens (takePrefix_plain (by omega) fun h t => hx h _ t (Or.inl rfl)) rfl
    (fun text ds hnum _ => .plain hbase hnum) fun text rest text' b' ds' ht hstop h hp => ?_
  cases h with
  | plain _ hnum => exact longest_after [] ht hstop hnum hp
  | @hex x tail _ hx' hnum =>
    obtain ⟨u, hu⟩ := hp
    exact absurd hu.symm (hx rfl x (tail ++ u) hx')
  | autoHex _ => omega
  | autoOctal _ => omega
  | autoDecimal _ _ => omega

/-- With `0X` the call stops after the zero. -/
theorem not_meets_upperHex (hopens : Opens s neg (chr '0' :: chr 'X' :: t)) : ¬ Meets 16 s (strtol s 16) := by
  rintro ⟨neg', body, text, b, ds, hopens', hbody, -, hlongest, -⟩
  have hsame := hopens.skip.symm.trans hopens'.skip
  obtain ⟨rfl, rfl⟩ := Prod.mk.injEq .. ▸ hsame
  have hbase : takePrefix 16 (chr '0' :: chr 'X' :: t) = (16, chr '0' :: chr 'X' :: t) :=
    takePrefix_plain (by decide) fun _ u hu => by cases hu
  obtain ⟨text', ds', rest, ht, hnum, -, hrun⟩ := strtol_eq hopens hbase
  have hshort := hnum.length_le_one (by decide) (Or.inr rfl) (ht ▸ List.prefix_append ..)
  have hlong := hlongest [chr '0', chr 'X'] 16 [] (.hex (Or.inr rfl) (.nil 16)) ⟨t, rfl⟩
  rw [hrun] at hbody
  have hlen := congrArg List.length (ht.symm.trans hbody)
  simp only [List.length_append] at hlen
  simp only [List.length_cons, List.length_nil] at hlong
  omega

/-- **`strtol` does what its comment says, unless it has to accept the prefix `0X`.** -/
theorem strtol_meets_iff (s : List UInt8) (base : ℕ) (hbase : base = 0 ∨ 2 ≤ base ∧ base ≤ 36) :
    Meets base s (strtol s base) ↔ ¬ (base = 16 ∧ UpperHex s) := by
  constructor
  · rintro hmeets ⟨rfl, neg, t, hopens⟩
    exact not_meets_upperHex hopens hmeets
  · intro hno
    have hopens := opens_skipBlanks s
    generalize (takeSign (skipBlanks s)).1 = neg, (takeSign (skipBlanks s)).2 = body at hopens
    by_cases hhex : (base = 0 ∨ base = 16) ∧ ∃ t, body = chr '0' :: chr 'x' :: t
    · obtain ⟨hbase', t, rfl⟩ := hhex
      exact meets_hex hopens hbase'
    rcases hbase with rfl | ⟨hbase, -⟩
    · cases body with
      | nil => exact meets_decimal hopens nofun
      | cons c t =>
        by_cases h0 : c = chr '0'
        · subst h0
          refine meets_octal hopens fun hx => hhex ⟨Or.inl rfl, t.tail, ?_⟩
          obtain ⟨u, rfl⟩ := List.head?_eq_some_iff.mp hx
          rfl
        · exact meets_decimal hopens fun h => h0 (Option.some.inj h)
    · refine meets_plain hopens hbase ?_
      rintro rfl x t (rfl | rfl) rfl
      · exact hhex ⟨Or.inr rfl, t, rfl⟩
      · exact hno ⟨rfl, neg, t, hopens⟩

/-- A number that `strtol` reads as its comment says. -/
theorem strtol_meets_lower : Meets 16 [chr ' ', chr '-', chr '0', chr 'x', chr '1', chr 'F', chr 'g']
    (strtol [chr ' ', chr '-', chr '0', chr 'x', chr '1', chr 'F', chr 'g'] 16) := by
  refine (strtol_meets_iff _ 16 (by decide)).mpr ?_
  rintro ⟨-, neg, t, hopens⟩
  cases hopens.skip

/-- The prefix `0X` is not read. -/
theorem strtol_upper : strtol [chr '0', chr 'X', chr '1', chr 'F'] 16 = (0, [chr 'X', chr '1', chr 'F']) ∧
    ¬ Meets 16 [chr '0', chr 'X', chr '1', chr 'F'] (strtol [chr '0', chr 'X', chr '1', chr 'F'] 16) := by
  refine ⟨by decide, not_meets_upperHex (t := [chr '1', chr 'F']) (.bare _ fun c hc => ?_)⟩
  cases hc
  decide

end call

end Ucore.Libs
