import Mathlib.Tactic.Linarith
import Mathlib.Tactic.Ring
import Ucore.Libs.Strtol

/-!
# `vprintfmt`

Reference model of `printnum`, `getuint`, `getint` and `vprintfmt` of `libs/printfmt.c`.  The format is the list of
its bytes before the `NUL`, the arguments are the 32-bit words of the `va_list`, low word first; the output is the
list of the arguments of `putch`.  A missing argument and a read outside a table are a failure, an `int` wraps around.

* `printnum_eq` — the digits, after the padding that the width leaves;
* `scanFlags` — the flags, up to the character of the conversion;
* `vprintfmt_percent` — one conversion.
-/

namespace Ucore.Libs

/-- The arguments of `putch`. -/
abbrev Out := List ℤ

/-- A character constant, as an `int`. -/
def code (c : Char) : ℤ := c.toNat

/-- `do_div`, by halves: the quotient and the remainder.  `divl` faults if its quotient is too large. -/
def do_div (n base : ℕ) : Option (ℕ × ℕ) := do
  let high := n / 2 ^ 32
  let low := n % 2 ^ 32
  let upper := if high ≠ 0 then high % base else high
  let high := if high ≠ 0 then high / base else high
  guard (base ≠ 0 ∧ (upper * 2 ^ 32 + low) / base < 2 ^ 32)
  return (high * 2 ^ 32 + (upper * 2 ^ 32 + low) / base, (upper * 2 ^ 32 + low) % base)

/-- `while (-- width > 0) putch(padc, …)`. -/
def padLoop (width : Int32) (padc : ℤ) : Out := List.replicate (width - 1).toInt.toNat padc

/-- `"0123456789abcdef"`. -/
def hexDigits : List Char := ['0', '1', '2', '3', '4', '5', '6', '7', '8', '9', 'a', 'b', 'c', 'd', 'e', 'f']

/-- `printnum`, with a bound for the number of digits. -/
def printnum : ℕ → ℕ → ℕ → Int32 → ℤ → Option Out
  | 0, _, _, _, _ => none
  | fuel + 1, num, base, width, padc => do
    let (result, mod) ← do_div num base
    let front ← if num ≥ base then printnum fuel result base (width - 1) padc else some (padLoop width padc)
    let last ← hexDigits[mod]?
    return front ++ [code last]

/-- `va_arg(ap, int)`. -/
def argInt : List UInt32 → Option (ℤ × List UInt32)
  | [] => none
  | a :: ap => some (a.toInt32.toInt, ap)

/-- `va_arg` of a word, or of two. -/
def argWord : List UInt32 → Option (UInt32 × List UInt32)
  | [] => none
  | a :: ap => some (a, ap)

def argLong : List UInt32 → Option (BitVec 64 × List UInt32)
  | low :: high :: ap => some (high.toBitVec ++ low.toBitVec, ap)
  | _ => none

/-- `unsigned int` and `unsigned long` are one word. -/
def getuint (ap : List UInt32) (lflag : ℕ) : Option (ℕ × List UInt32) :=
  if lflag ≥ 2 then (argLong ap).map fun r => (r.1.toNat, r.2) else (argWord ap).map fun r => (r.1.toNat, r.2)

def getint (ap : List UInt32) (lflag : ℕ) : Option (ℤ × List UInt32) :=
  if lflag ≥ 2 then (argLong ap).map fun r => (r.1.toInt, r.2) else argInt ap

/-- The variables of a `%`-escape sequence. -/
structure Flags where
  padc : ℤ
  width : Int32
  precision : Int32
  lflag : ℕ
  altflag : Bool
  deriving DecidableEq, Repr

def Flags.init : Flags := ⟨code ' ', -1, -1, 0, false⟩

/-- `process_precision`. -/
def Flags.processPrecision (f : Flags) (precision : Int32) : Flags :=
  if f.width < 0 then { f with width := precision, precision := -1 } else { f with precision := precision }

/-- The loop for the width, at its digit `ch`. -/
def widthLoop (ch : UInt8) : List UInt8 → Int32 → Int32 × List UInt8
  | [], precision => (precision * 10 + Int32.ofNat ch.toNat - Int32.ofNat '0'.toNat, [])
  | c :: fmt, precision =>
    let precision := precision * 10 + Int32.ofNat ch.toNat - Int32.ofNat '0'.toNat
    if chr '0' ≤ c ∧ c ≤ chr '9' then widthLoop c fmt precision else (precision, c :: fmt)

theorem widthLoop_length (ch : UInt8) (fmt : List UInt8) (precision : Int32) :
    (widthLoop ch fmt precision).2.length ≤ fmt.length := by
  induction fmt generalizing ch precision with
  | nil => exact le_rfl
  | cons c fmt ih =>
    rw [widthLoop]
    split
    · exact (ih c _).trans (Nat.le_succ _)
    · exact le_rfl

/-- From `reswitch` to the character of the conversion: that character, what follows it, the flags and the arguments
that are left.  The `NUL` is no flag. -/
def scanFlags : List UInt8 → Flags → List UInt32 → Option (UInt8 × List UInt8 × Flags × List UInt32)
  | [], f, ap => some (0, [], f, ap)
  | ch :: fmt, f, ap =>
    if ch = chr '-' then scanFlags fmt { f with padc := code '-' } ap
    else if ch = chr '0' then scanFlags fmt { f with padc := code '0' } ap
    else if chr '1' ≤ ch ∧ ch ≤ chr '9' then
      scanFlags (widthLoop ch fmt 0).2 (f.processPrecision (widthLoop ch fmt 0).1) ap
    else if ch = chr '*' then
      match argWord ap with
      | none => none
      | some (a, ap) => scanFlags fmt (f.processPrecision a.toInt32) ap
    else if ch = chr '.' then scanFlags fmt (if f.width < 0 then { f with width := 0 } else f) ap
    else if ch = chr '#' then scanFlags fmt { f with altflag := true } ap
    else if ch = chr 'l' then scanFlags fmt { f with lflag := f.lflag + 1 } ap
    else some (ch, fmt, f, ap)
termination_by fmt => fmt.length
decreasing_by
  all_goals simp only [List.length_cons]
  all_goals first | omega | exact Nat.lt_succ_of_le (widthLoop_length ..)

theorem scanFlags_length {fmt rest : List UInt8} {f f' : Flags} {ap ap' : List UInt32} {ch : UInt8}
    (h : scanFlags fmt f ap = some (ch, rest, f', ap')) : rest.length ≤ fmt.length := by
  fun_induction scanFlags fmt f ap with
  | case1 =>
    simp only [Option.some.injEq, Prod.mk.injEq] at h
    simp [← h.2.1]
  | case2 f ap fmt ih => exact (ih h).trans (Nat.le_succ _)
  | case3 f ap fmt _ ih => exact (ih h).trans (Nat.le_succ _)
  | case4 f ap ch' fmt _ _ _ ih => exact (ih h).trans ((widthLoop_length ..).trans (Nat.le_succ _))
  | case5 => cases h
  | case6 fmt f ap a ap' _ _ _ _ ih => exact (ih h).trans (Nat.le_succ _)
  | case7 fmt f ap _ _ _ _ ih => exact (ih h).trans (Nat.le_succ _)
  | case8 fmt f ap _ _ _ _ _ ih => exact (ih h).trans (Nat.le_succ _)
  | case9 fmt f ap _ _ _ _ _ _ ih => exact (ih h).trans (Nat.le_succ _)
  | case10 =>
    simp only [Option.some.injEq, Prod.mk.injEq] at h
    simp [← h.2.1]

/-! ## The conversions -/

def MAXERROR : ℤ := 24

/-- `error_string`, from `E_UNSPECIFIED` on. -/
def error_string : List String :=
  ["unspecified error", "bad process", "invalid parameter", "out of memory", "out of processes", "segmentation fault",
    "swap disk read/write fault", "invalid elf file", "process is killed", "panic failure", "timeout",
    "argument is too big", "no such device", "device not available", "device/file is busy",
    "no such file or directory", "is a directory", "not a directory", "cross device link", "unimplemented feature",
    "illegal seek", "too many files are open", "file or directory already exists", "directory is not empty"]

def bytes (s : String) : List UInt8 := s.toList.map chr

/-- A byte of the format. -/
def plainOut (ch : UInt8) : ℤ := ch.toNat

/-- `%d`. -/
def decimalOut (value : ℤ) (f : Flags) : Option Out := do
  let sign := if value < 0 then [code '-'] else []
  let digits ← printnum 64 value.natAbs 10 f.width f.padc
  return sign ++ digits

/-- One character of a string, as a signed `char`. -/
def shownChar (altflag : Bool) (ch : UInt8) : ℤ :=
  let ch := ch.toInt8.toInt
  if altflag = true ∧ (ch < code ' ' ∨ ch > code '~') then code '?' else ch

/-- `%s`, for a string that is not `NULL`. -/
def stringOut (p : List UInt8) (f : Flags) : Out :=
  let padded := f.width > 0 ∧ f.padc ≠ code '-'
  let left := f.width - Int32.ofNat (min p.length f.precision.toUInt32.toNat)
  let front := if padded then List.replicate left.toInt.toNat f.padc else []
  let width := if padded then (if left > 0 then 0 else left) else f.width
  let shown := if f.precision < 0 then p else p.take f.precision.toInt.toNat
  front ++ shown.map (shownChar f.altflag) ++
    List.replicate (width - Int32.ofNat shown.length).toInt.toNat (code ' ')

/-- `%e`, with the formats of its two calls of `printfmt` written out.  `-err` of the least `int` is itself, and is
no index of the table. -/
def errorOut (err : ℤ) : Option Out :=
  if err = -2 ^ 31 then none
  else
    let err := |err|
    if err > MAXERROR ∨ err = 0 then (decimalOut err Flags.init).map ((bytes "error ").map plainOut ++ ·)
    else error_string[err.toNat - 1]?.map fun p => stringOut (bytes p) Flags.init

section format

-- `strs a` are the bytes before the `NUL` of the string at `a`
variable (strs : UInt32 → List UInt8)

/-- The conversion `ch`: its output, if it is one, and the arguments that are left. -/
def convert (ch : UInt8) (f : Flags) (ap : List UInt32) : Option (Option Out × List UInt32) := do
  if ch = chr 'c' then
    let (value, ap) ← argInt ap
    return (some [value], ap)
  else if ch = chr 'e' then
    let (err, ap) ← argInt ap
    let out ← errorOut err
    return (some out, ap)
  else if ch = chr 's' then
    let (p, ap) ← argWord ap
    return (some (stringOut (if p = 0 then bytes "(null)" else strs p) f), ap)
  else if ch = chr 'd' then
    let (value, ap) ← getint ap f.lflag
    let out ← decimalOut value f
    return (some out, ap)
  else if ch = chr 'u' then
    let (num, ap) ← getuint ap f.lflag
    let out ← printnum 64 num 10 f.width f.padc
    return (some out, ap)
  else if ch = chr 'o' then
    let (num, ap) ← getuint ap f.lflag
    let out ← printnum 64 num 8 f.width f.padc
    return (some out, ap)
  else if ch = chr 'p' then
    let (num, ap) ← argWord ap
    let out ← printnum 64 num.toNat 16 f.width f.padc
    return (some (code '0' :: code 'x' :: out), ap)
  else if ch = chr 'x' then
    let (num, ap) ← getuint ap f.lflag
    let out ← printnum 64 num 16 f.width f.padc
    return (some out, ap)
  else if ch = chr '%' then
    return (some [code '%'], ap)
  else
    return (none, ap)

/-- `vprintfmt`.  After an unrecognized sequence it goes on behind the `%`. -/
def vprintfmt : List UInt8 → List UInt32 → Option Out
  | [], _ => some []
  | ch :: fmt, ap =>
    if ch = chr '%' then
      match _hscan : scanFlags fmt Flags.init ap with
      | none => none
      | some (conv, rest, f, ap) =>
        match convert strs conv f ap with
        | none => none
        | some (none, ap) => (vprintfmt fmt ap).map (code '%' :: ·)
        | some (some out, ap) => (vprintfmt rest ap).map (out ++ ·)
    else (vprintfmt fmt ap).map (plainOut ch :: ·)
termination_by fmt => fmt.length
decreasing_by
  · exact Nat.lt_succ_self _
  · exact Nat.lt_succ_of_le (scanFlags_length _hscan)
  · exact Nat.lt_succ_self _

variable {strs} {fmt rest : List UInt8} {ap ap' : List UInt32}

@[simp]
theorem vprintfmt_nil : vprintfmt strs [] ap = some [] := by
  rw [vprintfmt]

theorem vprintfmt_percent {conv : UInt8} {f : Flags} {ap₁ : List UInt32} {out : Out}
    (hscan : scanFlags fmt Flags.init ap = some (conv, rest, f, ap₁))
    (hconv : convert strs conv f ap₁ = some (some out, ap')) :
    vprintfmt strs (chr '%' :: fmt) ap = (vprintfmt strs rest ap').map (out ++ ·) := by
  rw [vprintfmt, if_pos rfl]
  split
  · rename_i h
    rw [hscan] at h
    cases h
  · rename_i h
    rw [hscan] at h
    cases h
    rw [hconv]

end format

/-! ## The digits -/

section digits

theorem do_div_eq {n base : ℕ} (hbase : 0 < base) : do_div n base = some (n / base, n % base) := by
  have hupper : (if n / 2 ^ 32 ≠ 0 then n / 2 ^ 32 % base else n / 2 ^ 32) = n / 2 ^ 32 % base := by
    split
    · rfl
    · rename_i h
      rw [not_not.mp h, Nat.zero_mod]
  have hhigh : (if n / 2 ^ 32 ≠ 0 then n / 2 ^ 32 / base else n / 2 ^ 32) = n / 2 ^ 32 / base := by
    split
    · rfl
    · rename_i h
      rw [not_not.mp h, Nat.zero_div]
  have hn' : n = n / 2 ^ 32 % base * 2 ^ 32 + n % 2 ^ 32 + base * (n / 2 ^ 32 / base * 2 ^ 32) := by
    have h := Nat.div_add_mod (n / 2 ^ 32) base
    have h' := Nat.div_add_mod n (2 ^ 32)
    calc n = 2 ^ 32 * (n / 2 ^ 32) + n % 2 ^ 32 := h'.symm
      _ = 2 ^ 32 * (base * (n / 2 ^ 32 / base) + n / 2 ^ 32 % base) + n % 2 ^ 32 := by rw [h]
      _ = _ := by ring
  have hquot : (n / 2 ^ 32 % base * 2 ^ 32 + n % 2 ^ 32) / base < 2 ^ 32 := by
    rw [Nat.div_lt_iff_lt_mul hbase]
    have := Nat.mod_lt (n / 2 ^ 32) hbase
    have := Nat.mod_lt n (show 2 ^ 32 > 0 by decide)
    nlinarith
  have hdiv := Nat.add_mul_div_left (n / 2 ^ 32 % base * 2 ^ 32 + n % 2 ^ 32) (n / 2 ^ 32 / base * 2 ^ 32) hbase
  have hmod := Nat.add_mul_mod_self_left (n / 2 ^ 32 % base * 2 ^ 32 + n % 2 ^ 32) base (n / 2 ^ 32 / base * 2 ^ 32)
  rw [← hn'] at hdiv hmod
  simp only [do_div, hupper, hhigh]
  rw [guard, if_pos ⟨hbase.ne', hquot⟩, hdiv, hmod, Nat.add_comm]
  rfl

theorem hexDigits_eq : ∀ mod < 16, hexDigits[mod]? = some (Nat.digitChar mod) := by
  decide

/-- **The digits, after the padding that the width leaves.** -/
theorem printnum_eq {fuel num base : ℕ} {width : Int32} {padc : ℤ} (hbase : 2 ≤ base) (hbase' : base ≤ 16)
    (hfuel : num < 2 ^ fuel) (hpos : 0 < fuel) :
    printnum fuel num base width padc =
      some (List.replicate (width - Int32.ofNat (Nat.toDigits base num).length).toInt.toNat padc ++
        (Nat.toDigits base num).map code) := by
  induction fuel generalizing num width with
  | zero => exact absurd hpos (lt_irrefl 0)
  | succ fuel ih =>
    have hmod : num % base < 16 := (Nat.mod_lt _ (by omega)).trans_le hbase'
    simp only [printnum, do_div_eq (show 0 < base by omega), hexDigits_eq _ hmod, Option.bind_eq_bind,
      Option.bind_some]
    by_cases hlt : num < base
    · rw [if_neg (not_le.mpr hlt), Nat.toDigits_of_lt_base hlt, Nat.mod_eq_of_lt hlt]
      rfl
    · have hle : base ≤ num := not_lt.mp hlt
      have hdiv : num / base < 2 ^ fuel := by
        rw [Nat.div_lt_iff_lt_mul (by omega)]
        rw [pow_succ] at hfuel
        nlinarith [Nat.two_pow_pos fuel]
      have hfuel' : 0 < fuel := by
        rcases Nat.eq_zero_or_pos fuel with rfl | h
        · omega
        · exact h
      rw [if_pos hle, ih hdiv hfuel', Nat.toDigits_of_base_le (by omega) hle]
      have hwidth : width - 1 - Int32.ofNat (Nat.toDigits base (num / base)).length =
          width - Int32.ofNat ((Nat.toDigits base (num / base)).length + 1) := by
        rw [Int32.ofNat_add]
        grind
      simp [hwidth]

end digits

end Ucore.Libs
