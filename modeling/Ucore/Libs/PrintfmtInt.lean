import Ucore.Libs.Printfmt

/-!
# The integer conversions of `vprintfmt`

The conversions `%[-][0][width][l or ll]{d,u,o,x}`, and what their flags ask for.

* `IntConv.expected` — the digits with the sign, padded as the flags say;
* `scanFlags_format` — the flags that `vprintfmt` reads are those of the conversion;
* `vprintfmt_format` — what it prints: the sign, the padding, the digits;
* `IntConv.meets_iff` — that is what is expected if the width asks for no padding, or for padding on the left of a
  number without a sign.
-/

namespace Ucore.Libs

inductive Size where
  | int
  | long
  | longLong
  deriving DecidableEq, Repr

/-- The number of `l`. -/
def Size.lflag : Size → ℕ
  | .int => 0
  | .long => 1
  | .longLong => 2

def Size.bits : Size → ℕ
  | .int => 32
  | .long => 32
  | .longLong => 64

inductive Letter where
  | d
  | u
  | o
  | x
  deriving DecidableEq, Repr

def Letter.char : Letter → UInt8
  | .d => chr 'd'
  | .u => chr 'u'
  | .o => chr 'o'
  | .x => chr 'x'

def Letter.base : Letter → ℕ
  | .d => 10
  | .u => 10
  | .o => 8
  | .x => 16

/-- A conversion; the width 0 is left out. -/
structure IntConv where
  minus : Bool
  zero : Bool
  width : ℕ
  size : Size
  letter : Letter
  deriving DecidableEq, Repr

namespace IntConv

variable (c : IntConv)

/-- The width, in decimal. -/
def widthText : List UInt8 := if c.width = 0 then [] else (Nat.toDigits 10 c.width).map chr

def format : List UInt8 :=
  chr '%' :: ((if c.minus then [chr '-'] else []) ++ ((if c.zero then [chr '0'] else []) ++ (c.widthText ++
    (List.replicate c.size.lflag (chr 'l') ++ [c.letter.char]))))

variable (arg : BitVec c.size.bits)

/-- The words of the argument. -/
def words : List UInt32 :=
  match c.size with
  | .int | .long => [UInt32.ofNat arg.toNat]
  | .longLong => [UInt32.ofNat arg.toNat, UInt32.ofNat (arg.toNat / 2 ^ 32)]

def value : ℤ := if c.letter = .d then arg.toInt else arg.toNat

def sign : Out := if c.value arg < 0 then [code '-'] else []

def digits : Out := (Nat.toDigits c.letter.base (c.value arg).natAbs).map code

/-- The digits and the sign, and the padding to the width: spaces on the right for `-`, zeros after the sign for `0`,
spaces on the left otherwise. -/
def expected : Out :=
  let text := c.sign arg ++ c.digits arg
  let pad := c.width - text.length
  if c.minus then text ++ List.replicate pad (code ' ')
  else if c.zero then c.sign arg ++ List.replicate pad (code '0') ++ c.digits arg
  else List.replicate pad (code ' ') ++ text

/-- The conversion prints what is expected, whatever follows. -/
def Meets (strs : UInt32 → List UInt8) : Prop :=
  ∀ rest ap, vprintfmt strs (c.format ++ rest) (c.words arg ++ ap) =
    (vprintfmt strs rest ap).map (c.expected arg ++ ·)

/-- What the flags set. -/
def flags : Flags where
  padc := if c.zero then code '0' else if c.minus then code '-' else code ' '
  width := if c.width = 0 then -1 else Int32.ofNat c.width
  precision := -1
  lflag := c.size.lflag
  altflag := false

/-- What `vprintfmt` prints. -/
def emitted : Out :=
  c.sign arg ++ (List.replicate (c.flags.width - Int32.ofNat (c.digits arg).length).toInt.toNat c.flags.padc ++
    c.digits arg)

end IntConv

/-! ## The flags -/

section flags

variable {f : Flags} {fmt rest : List UInt8} {ap : List UInt32} {strs : UInt32 → List UInt8}

theorem scanFlags_minus : scanFlags (chr '-' :: fmt) f ap = scanFlags fmt { f with padc := code '-' } ap := by
  rw [scanFlags, if_pos rfl]

theorem scanFlags_zero : scanFlags (chr '0' :: fmt) f ap = scanFlags fmt { f with padc := code '0' } ap := by
  rw [scanFlags, if_neg (by decide), if_pos rfl]

theorem scanFlags_long (n : ℕ) : scanFlags (List.replicate n (chr 'l') ++ fmt) f ap =
    scanFlags fmt { f with lflag := f.lflag + n } ap := by
  induction n generalizing f with
  | zero => rfl
  | succ n ih =>
    rw [List.replicate_succ, List.cons_append, scanFlags, if_neg (by decide), if_neg (by decide), if_neg (by decide),
      if_neg (by decide), if_neg (by decide), if_neg (by decide), if_pos rfl, ih, Nat.add_assoc, Nat.add_comm 1 n]

theorem scanFlags_letter (letter : Letter) :
    scanFlags (letter.char :: fmt) f ap = some (letter.char, fmt, f, ap) := by
  cases letter <;> rw [scanFlags] <;> rfl

/-- No digit comes next. -/
def NoDigit (fmt : List UInt8) : Prop := ∀ c, fmt.head? = some c → ¬ (chr '0' ≤ c ∧ c ≤ chr '9')

theorem chr_of_isDigit {c : Char} (hc : c.isDigit) :
    48 ≤ c.toNat ∧ c.toNat ≤ 57 ∧ (chr c).toNat = c.toNat := by
  simp only [Char.isDigit, ge_iff_le, Bool.and_eq_true, decide_eq_true_eq] at hc
  have hlow : 48 ≤ c.toNat := hc.1
  have hhigh : c.toNat ≤ 57 := hc.2
  refine ⟨hlow, hhigh, ?_⟩
  simp only [chr, UInt8.toNat_ofNat']
  omega

theorem widthLoop_step {c : Char} (hc : c.isDigit) (n : ℕ) :
    Int32.ofNat n * 10 + Int32.ofNat (chr c).toNat - Int32.ofNat '0'.toNat =
      Int32.ofNat (10 * n + (c.toNat - '0'.toNat)) := by
  obtain ⟨hlow, -, hchr⟩ := chr_of_isDigit hc
  obtain ⟨d, hd⟩ := Nat.exists_eq_add_of_le hlow
  rw [hchr, show c.toNat - '0'.toNat = d by rw [hd]; exact Nat.add_sub_cancel_left .., hd, Int32.ofNat_add,
    Int32.ofNat_add, Int32.ofNat_mul]
  show Int32.ofNat n * 10 + (48 + Int32.ofNat d) - 48 = 10 * Int32.ofNat n + Int32.ofNat d
  grind

theorem widthLoop_eq {c : Char} {cs : List Char} {n : ℕ} (hdigits : ∀ x ∈ c :: cs, x.isDigit) (hrest : NoDigit rest) :
    widthLoop (chr c) (cs.map chr ++ rest) (Int32.ofNat n) =
      (Int32.ofNat (Nat.ofDigitChars 10 (c :: cs) n), rest) := by
  have hstep := widthLoop_step (hdigits c (List.mem_cons_self ..)) n
  induction cs generalizing c n with
  | nil =>
    cases rest with
    | nil =>
      rw [List.map_nil, List.nil_append, widthLoop, hstep]
      rfl
    | cons r rest =>
      rw [List.map_nil, List.nil_append, widthLoop, if_neg (hrest r rfl), hstep]
      rfl
  | cons c' cs ih =>
    have hc' : c'.isDigit := hdigits c' (by simp)
    obtain ⟨hlow, hhigh, hchr⟩ := chr_of_isDigit hc'
    have hrange : chr '0' ≤ chr c' ∧ chr c' ≤ chr '9' := by
      simp only [UInt8.le_iff_toNat_le, hchr]
      exact ⟨hlow, hhigh⟩
    rw [List.map_cons, List.cons_append, widthLoop, if_pos hrange, hstep, Nat.ofDigitChars_cons]
    exact ih (fun x hx => hdigits x (List.mem_cons_of_mem _ hx)) (widthLoop_step hc' _)

/-- The first digit of a width is not 0. -/
theorem exists_digits {w : ℕ} (hw : 0 < w) : ∃ c cs, Nat.toDigits 10 w = c :: cs ∧ c ≠ '0' := by
  induction w using Nat.strongRecOn with
  | ind w ih =>
    by_cases hlt : w < 10
    · refine ⟨Nat.digitChar w, [], Nat.toDigits_of_lt_base hlt, ?_⟩
      exact (by decide : ∀ w < 10, 0 < w → Nat.digitChar w ≠ '0') w hlt hw
    · obtain ⟨c, cs, hdigits, hc⟩ := ih (w / 10) (by omega) (by omega)
      refine ⟨c, cs ++ [Nat.digitChar (w % 10)], ?_, hc⟩
      rw [Nat.toDigits_of_base_le (by decide) (not_lt.mp hlt), hdigits, List.cons_append]

theorem scanFlags_width {w : ℕ} (hw : 0 < w) (hrest : NoDigit rest) :
    scanFlags ((Nat.toDigits 10 w).map chr ++ rest) f ap =
      scanFlags rest (f.processPrecision (Int32.ofNat w)) ap := by
  obtain ⟨c, cs, hdigits, hc⟩ := exists_digits hw
  have hall : ∀ x ∈ c :: cs, x.isDigit := fun x hx =>
    Nat.isDigit_of_mem_toDigits (by decide) (by decide) (hdigits ▸ hx)
  obtain ⟨hlow, hhigh, hchr⟩ := chr_of_isDigit (hall c (List.mem_cons_self ..))
  have hne : c.toNat ≠ 48 := fun h => hc (Char.ext (UInt32.toNat_inj.mp h))
  have hminus : chr c ≠ chr '-' := fun h => by
    have h := congrArg UInt8.toNat h
    rw [hchr] at h
    change c.toNat = 45 at h
    omega
  have hzero : chr c ≠ chr '0' := fun h => by
    have h := congrArg UInt8.toNat h
    rw [hchr] at h
    exact hne h
  have hrange : chr '1' ≤ chr c ∧ chr c ≤ chr '9' := by
    simp only [UInt8.le_iff_toNat_le, hchr]
    change 49 ≤ c.toNat ∧ c.toNat ≤ 57
    omega
  rw [hdigits, List.map_cons, List.cons_append, scanFlags, if_neg hminus, if_neg hzero, if_pos hrange]
  have hloop := widthLoop_eq (n := 0) hall hrest
  rw [← hdigits, Nat.ofDigitChars_toDigits (by decide) (by decide)] at hloop
  rw [show (0 : Int32) = Int32.ofNat 0 from rfl, hloop]

theorem noDigit_letter (n : ℕ) (letter : Letter) : NoDigit (List.replicate n (chr 'l') ++ letter.char :: rest) := by
  intro c hc
  cases n with
  | zero =>
    obtain rfl := Option.some.inj hc
    cases letter <;> decide
  | succ n =>
    obtain rfl := Option.some.inj hc
    decide

/-- The flags are those of the conversion. -/
theorem scanFlags_format (c : IntConv) :
    scanFlags ((c.format ++ rest).tail) Flags.init ap = some (c.letter.char, rest, c.flags, ap) := by
  obtain ⟨minus, zero, width, size, letter⟩ := c
  have hrest : ∀ f, scanFlags (List.replicate size.lflag (chr 'l') ++ letter.char :: rest) f ap =
      some (letter.char, rest, { f with lflag := f.lflag + size.lflag }, ap) := fun f => by
    rw [scanFlags_long, scanFlags_letter]
  have hwidth : ∀ f : Flags, f.width = -1 → f.precision = -1 →
      scanFlags (IntConv.widthText ⟨minus, zero, width, size, letter⟩ ++
        (List.replicate size.lflag (chr 'l') ++ letter.char :: rest)) f ap =
      some (letter.char, rest, { f with
        width := if width = 0 then -1 else Int32.ofNat width, lflag := f.lflag + size.lflag }, ap) := by
    intro f hf hf'
    rcases Nat.eq_zero_or_pos width with rfl | hpos
    · rw [IntConv.widthText, if_pos rfl, List.nil_append, hrest, if_pos rfl, ← hf]
    · rw [IntConv.widthText, if_neg hpos.ne', scanFlags_width hpos (noDigit_letter _ _), hrest, if_neg hpos.ne']
      simp [Flags.processPrecision, hf, hf']
  simp only [IntConv.format, List.cons_append, List.tail_cons, List.append_assoc, List.nil_append]
  cases minus with
  | false =>
    cases zero with
    | false =>
      simp only [Bool.false_eq_true, if_false, List.nil_append]
      rw [hwidth _ rfl rfl]
      simp [IntConv.flags, Flags.init]
    | true =>
      simp only [Bool.false_eq_true, if_false, if_true, List.nil_append, List.cons_append]
      rw [scanFlags_zero, hwidth _ rfl rfl]
      simp [IntConv.flags, Flags.init]
  | true =>
    cases zero with
    | false =>
      simp only [Bool.false_eq_true, if_false, if_true, List.nil_append, List.cons_append]
      rw [scanFlags_minus, hwidth _ rfl rfl]
      simp [IntConv.flags, Flags.init]
    | true =>
      simp only [if_true, List.nil_append, List.cons_append]
      rw [scanFlags_minus, scanFlags_zero, hwidth _ rfl rfl]
      simp [IntConv.flags, Flags.init]

end flags

/-! ## The argument -/

section argument

variable (c : IntConv) (arg : BitVec c.size.bits) (ap : List UInt32)

theorem argLong_eq (arg : BitVec 64) :
    (UInt32.ofNat (arg.toNat / 2 ^ 32)).toBitVec ++ (UInt32.ofNat arg.toNat).toBitVec = arg := by
  apply BitVec.eq_of_toNat_eq
  have hlow : arg.toNat % 2 ^ 32 < 2 ^ 32 := Nat.mod_lt _ (by decide)
  have hhigh : arg.toNat / 2 ^ 32 % 2 ^ 32 = arg.toNat / 2 ^ 32 := Nat.mod_eq_of_lt (by omega)
  rw [BitVec.toNat_append, UInt32.toBitVec_ofNat', UInt32.toBitVec_ofNat', BitVec.toNat_ofNat, BitVec.toNat_ofNat,
    hhigh, ← Nat.shiftLeft_add_eq_or_of_lt hlow, Nat.shiftLeft_eq]
  omega

theorem argInt_eq (arg : BitVec 32) : argInt (UInt32.ofNat arg.toNat :: ap) = some (arg.toInt, ap) := by
  have h : (UInt32.ofNat arg.toNat).toBitVec = arg := by simp
  show some ((UInt32.ofNat arg.toNat).toBitVec.toInt, ap) = _
  rw [h]

theorem argWord_eq (arg : BitVec 32) :
    (argWord (UInt32.ofNat arg.toNat :: ap)).map (fun r => (r.1.toNat, r.2)) = some (arg.toNat, ap) := by
  have h : (UInt32.ofNat arg.toNat).toNat = arg.toNat := by
    rw [UInt32.toNat_ofNat']
    exact Nat.mod_eq_of_lt arg.isLt
  rw [argWord, Option.map_some, h]

theorem getuint_words : getuint (c.words arg ++ ap) c.size.lflag = some (arg.toNat, ap) := by
  obtain ⟨minus, zero, width, size, letter⟩ := c
  cases size with
  | int => exact argWord_eq ap arg
  | long => exact argWord_eq ap arg
  | longLong => exact congrArg (fun x : BitVec 64 => some (x.toNat, ap)) (argLong_eq arg)

theorem getint_words : getint (c.words arg ++ ap) c.size.lflag = some (arg.toInt, ap) := by
  obtain ⟨minus, zero, width, size, letter⟩ := c
  cases size with
  | int => exact argInt_eq ap arg
  | long => exact argInt_eq ap arg
  | longLong => exact congrArg (fun x : BitVec 64 => some (x.toInt, ap)) (argLong_eq arg)

theorem bits_le (size : Size) : size.bits ≤ 64 := by
  cases size <;> decide

theorem natAbs_value_lt : (c.value arg).natAbs < 2 ^ 64 := by
  have hlt : arg.toNat < 2 ^ 64 := arg.isLt.trans_le (Nat.pow_le_pow_right (by decide) (bits_le c.size))
  have hpow : 2 ^ c.size.bits ≤ 2 ^ 64 := Nat.pow_le_pow_right (by decide) (bits_le c.size)
  unfold IntConv.value
  split
  · rw [BitVec.toInt_eq_toNat_cond]
    split
    · omega
    · omega
  · omega

/-- What `printnum` prints for the argument. -/
theorem printnum_value : printnum 64 (c.value arg).natAbs c.letter.base c.flags.width c.flags.padc =
    some (List.replicate (c.flags.width - Int32.ofNat (c.digits arg).length).toInt.toNat c.flags.padc ++
      c.digits arg) := by
  have hbase : 2 ≤ c.letter.base ∧ c.letter.base ≤ 16 := by
    cases c.letter <;> decide
  rw [printnum_eq hbase.1 hbase.2 (natAbs_value_lt c arg) (by decide), IntConv.digits, List.length_map]

end argument

section convert

variable {strs : UInt32 → List UInt8} {f : Flags} {ap ap' : List UInt32} {out : Out}

theorem convert_decimal {value : ℤ} (harg : getint ap f.lflag = some (value, ap'))
    (hout : decimalOut value f = some out) :
    convert strs (chr 'd') f ap = some (some out, ap') := by
  rw [convert, if_neg (by decide), if_neg (by decide), if_neg (by decide), if_pos rfl, harg, Option.bind_eq_bind,
    Option.bind_some]
  simp only [hout]
  rfl

theorem convert_unsigned {letter : Letter} {num : ℕ} (hletter : letter ≠ .d)
    (harg : getuint ap f.lflag = some (num, ap')) (hout : printnum 64 num letter.base f.width f.padc = some out) :
    convert strs letter.char f ap = some (some out, ap') := by
  cases letter with
  | d => exact absurd rfl hletter
  | u =>
    have hchar : Letter.u.char = chr 'u' := rfl
    have hbase : Letter.u.base = 10 := rfl
    rw [hbase] at hout
    rw [hchar, convert, if_neg (by decide), if_neg (by decide), if_neg (by decide), if_neg (by decide),
      if_pos rfl, harg,
      Option.bind_eq_bind, Option.bind_some]
    simp only [hout]
    rfl
  | o =>
    have hchar : Letter.o.char = chr 'o' := rfl
    have hbase : Letter.o.base = 8 := rfl
    rw [hbase] at hout
    rw [hchar, convert, if_neg (by decide), if_neg (by decide), if_neg (by decide), if_neg (by decide),
      if_neg (by decide), if_pos rfl, harg,
      Option.bind_eq_bind, Option.bind_some]
    simp only [hout]
    rfl
  | x =>
    have hchar : Letter.x.char = chr 'x' := rfl
    have hbase : Letter.x.base = 16 := rfl
    rw [hbase] at hout
    rw [hchar, convert, if_neg (by decide), if_neg (by decide), if_neg (by decide), if_neg (by decide),
      if_neg (by decide), if_neg (by decide), if_neg (by decide), if_pos rfl, harg,
      Option.bind_eq_bind, Option.bind_some]
    simp only [hout]
    rfl

end convert

/-- **What a conversion prints: the sign, the padding, the digits.** -/
theorem vprintfmt_format (c : IntConv) (arg : BitVec c.size.bits) (strs : UInt32 → List UInt8) (rest : List UInt8)
    (ap : List UInt32) : vprintfmt strs (c.format ++ rest) (c.words arg ++ ap) =
      (vprintfmt strs rest ap).map (c.emitted arg ++ ·) := by
  refine vprintfmt_percent (scanFlags_format c) ?_
  have hprint := printnum_value c arg
  by_cases hletter : c.letter = .d
  · have hvalue : c.value arg = arg.toInt := if_pos hletter
    rw [hletter] at hprint ⊢
    refine convert_decimal (getint_words c arg ap) ?_
    rw [← hvalue, decimalOut, show (10 : ℕ) = Letter.d.base from rfl, hprint]
    rfl
  · have hvalue : c.value arg = arg.toNat := if_neg hletter
    rw [hvalue, Int.natAbs_natCast] at hprint
    have hsign : c.sign arg = [] := by
      rw [IntConv.sign, hvalue, if_neg (Int.natCast_nonneg _).not_gt]
    rw [IntConv.emitted, hsign]
    exact convert_unsigned hletter (getuint_words c arg ap) hprint

/-! ## The flags are met -/

namespace IntConv

variable (c : IntConv) (arg : BitVec c.size.bits)

/-- The width asks for no padding, or for padding on the left of a number without a sign. -/
def Fits : Prop :=
  c.width ≤ (c.digits arg).length ∨
    0 ≤ c.value arg ∧ c.minus = false ∧ c.width < 2 ^ 31 + (c.digits arg).length

theorem length_digits : 0 < (c.digits arg).length ∧ (c.digits arg).length ≤ 64 := by
  have hbase : 2 ≤ c.letter.base := by
    cases c.letter <;> decide
  rw [digits, List.length_map]
  refine ⟨Nat.length_toDigits_pos, (Nat.length_toDigits_le_iff hbase (by decide)).mpr ?_⟩
  exact (natAbs_value_lt c arg).trans_le (Nat.pow_le_pow_left hbase 64)

/-- The padding that `printnum` prints. -/
def pads : ℕ := (c.flags.width - Int32.ofNat (c.digits arg).length).toInt.toNat

theorem pads_eq : c.pads arg =
    (((if c.width = 0 then -1 else (c.width : ℤ)) - (c.digits arg).length).bmod (2 ^ 32)).toNat := by
  have hwidth : c.flags.width = Int32.ofInt (if c.width = 0 then -1 else (c.width : ℤ)) := by
    simp only [flags]
    split
    · rfl
    · rw [Int32.ofInt_eq_ofNat]
  rw [pads, hwidth, ← Int32.ofInt_eq_ofNat, ← Int32.ofInt_sub, Int32.toInt_ofInt]
  rfl

theorem pads_of_le (h : c.width ≤ (c.digits arg).length) : c.pads arg = 0 := by
  obtain ⟨hpos, hle⟩ := c.length_digits arg
  rw [pads_eq]
  split
  · rw [Int.bmod_def]
    split <;> omega
  · rw [Int.bmod_def]
    split <;> omega

theorem pads_of_lt (h : (c.digits arg).length < c.width) :
    c.pads arg = c.width - (c.digits arg).length ↔ c.width < 2 ^ 31 + (c.digits arg).length := by
  obtain ⟨hpos, hle⟩ := c.length_digits arg
  rw [pads_eq, if_neg (show c.width ≠ 0 by omega), Int.bmod_def]
  split <;> omega

theorem pads_ne (h : (c.digits arg).length < c.width) : c.pads arg + 1 ≠ c.width - (c.digits arg).length := by
  obtain ⟨hpos, hle⟩ := c.length_digits arg
  rw [pads_eq, if_neg (show c.width ≠ 0 by omega), Int.bmod_def]
  split <;> omega

theorem emitted_eq : c.emitted arg = c.sign arg ++ (List.replicate (c.pads arg) c.flags.padc ++ c.digits arg) := rfl

theorem length_expected : (c.expected arg).length = max c.width ((c.sign arg).length + (c.digits arg).length) := by
  simp only [expected]
  split
  · simp only [List.length_append, List.length_replicate]
    omega
  · split
    · simp only [List.length_append, List.length_replicate]
      omega
    · simp only [List.length_append, List.length_replicate]
      omega

/-- The last character is a digit. -/
theorem exists_last_digit : ∃ front, ∃ d < 16, c.digits arg = front ++ [code (Nat.digitChar d)] := by
  have hbase : 2 ≤ c.letter.base ∧ c.letter.base ≤ 16 := by
    cases c.letter <;> decide
  have hmod := Nat.mod_lt (c.value arg).natAbs (show c.letter.base > 0 by omega)
  rw [digits, Nat.toDigits_eq_if hbase.1]
  split
  · exact ⟨[], _, by omega, rfl⟩
  · exact ⟨(Nat.toDigits c.letter.base _).map code, _, hmod.trans_le hbase.2, by rw [List.map_append]; rfl⟩

theorem emitted_of_minus (hminus : c.minus = true) (hsign : c.sign arg = []) (hlt : (c.digits arg).length < c.width) :
    c.emitted arg ≠ c.expected arg := by
  intro h
  obtain ⟨front, d, hd, hdigits⟩ := c.exists_last_digit arg
  have hlast : (c.emitted arg).getLast? = some (code (Nat.digitChar d)) := by
    rw [emitted_eq, hdigits, ← List.append_assoc, ← List.append_assoc, List.getLast?_concat]
  have hpad : c.width - (c.sign arg ++ c.digits arg).length = (c.width - (c.digits arg).length - 1) + 1 := by
    rw [hsign, List.nil_append]
    omega
  have hlast' : (c.expected arg).getLast? = some (code ' ') := by
    simp only [expected, hminus, if_true, hpad, List.replicate_succ']
    rw [← List.append_assoc, List.getLast?_concat]
  rw [h, hlast'] at hlast
  exact (by decide : ∀ d < 16, code ' ' ≠ code (Nat.digitChar d)) d hd (Option.some.inj hlast)

theorem emitted_eq_iff : c.emitted arg = c.expected arg ↔ c.Fits arg := by
  by_cases hle : c.width ≤ (c.digits arg).length
  · have hpad : c.width - ((c.sign arg).length + (c.digits arg).length) = 0 := by omega
    refine iff_of_true ?_ (.inl hle)
    simp [emitted_eq, c.pads_of_le arg hle, expected, hpad]
  · have hlt : (c.digits arg).length < c.width := not_le.mp hle
    by_cases hneg : c.value arg < 0
    · -- the sign takes a place that the padding does not leave
      have hsign : c.sign arg = [code '-'] := if_pos hneg
      refine iff_of_false (fun h => ?_) fun h => ?_
      · have hlength := congrArg List.length h
        rw [length_expected, emitted_eq, hsign] at hlength
        simp only [List.length_append, List.length_replicate, List.length_singleton] at hlength
        have := c.pads_ne arg hlt
        omega
      · rcases h with h | ⟨h, -⟩
        · omega
        · omega
    · have hsign : c.sign arg = [] := if_neg hneg
      cases hminus : c.minus with
      | true =>
        refine iff_of_false (c.emitted_of_minus arg hminus hsign hlt) fun h => ?_
        rcases h with h | ⟨-, h, -⟩
        · omega
        · rw [hminus] at h
          cases h
      | false =>
        have hfits : c.Fits arg ↔ c.pads arg = c.width - (c.digits arg).length := by
          rw [c.pads_of_lt arg hlt]
          exact ⟨fun h => (h.resolve_left hle).2.2, fun h => .inr ⟨not_lt.mp hneg, hminus, h⟩⟩
        rw [hfits]
        constructor
        · intro h
          have hlength := congrArg List.length h
          rw [length_expected, emitted_eq, hsign] at hlength
          simp only [List.nil_append, List.length_append, List.length_replicate, List.length_nil] at hlength
          omega
        · intro h
          simp only [emitted_eq, expected, hsign, List.nil_append, h, flags, hminus, Bool.false_eq_true, if_false]
          cases c.zero with
          | true => rfl
          | false => rfl

theorem Meets.emitted_eq {c : IntConv} {arg : BitVec c.size.bits} {strs : UInt32 → List UInt8}
    (h : c.Meets arg strs) : c.emitted arg = c.expected arg := by
  have hrun := h [] []
  rw [vprintfmt_format] at hrun
  simpa using hrun

/-- **An integer conversion follows its flags exactly if `Fits`.** -/
theorem meets_iff (strs : UInt32 → List UInt8) : c.Meets arg strs ↔ c.Fits arg := by
  rw [← emitted_eq_iff]
  refine ⟨Meets.emitted_eq, fun h rest ap => ?_⟩
  rw [vprintfmt_format, h]

/-- `%-5d` prints 42 as `---42`, and `%5d` prints -42 as `-   42`. -/
theorem five_fails :
    (vprintfmt (fun _ => []) (bytes "%-5d") [42] = some ("---42".toList.map code) ∧
      ¬ IntConv.Meets ⟨true, false, 5, .int, .d⟩ (42#32) fun _ => []) ∧
    (vprintfmt (fun _ => []) (bytes "%5d") [-42] = some ("-   42".toList.map code) ∧
      ¬ IntConv.Meets ⟨false, false, 5, .int, .d⟩ (-42#32) fun _ => []) := by
  refine ⟨⟨?_, fun h => absurd h.emitted_eq (by decide)⟩, ?_, fun h => absurd h.emitted_eq (by decide)⟩
  · exact (vprintfmt_format ⟨true, false, 5, .int, .d⟩ (42#32) _ [] []).trans (by simp; decide)
  · exact (vprintfmt_format ⟨false, false, 5, .int, .d⟩ (-42#32) _ [] []).trans (by simp; decide)

end IntConv

end Ucore.Libs
