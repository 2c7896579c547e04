import EspDrivers.Checked
import EspDrivers.Mac

/-! The verdict of the FFT tests: they count the output values that are not within the relative
tolerance, and compare the count with a threshold that is kept in an int. -/
namespace EspDrivers.FftVerdict
open Buffers Checked
open ContigAlloc (uint toInt)
open Mac (foldlM_errors)

section Model

/-- The arithmetic of floats and doubles, with every rounding and every value that is not a
number. -/
structure Floats (R : Type) where
  ofBits32 : BitVec 32 → R
  ofBits64 : BitVec 64 → R
  toFloat : Int → R
  toDouble : Int → R
  mulFloat : R → R → R
  mulDouble : R → R → R
  subFloat : R → R → R
  subDouble : R → R → R
  fabs : R → R
  div : R → R → R
  gt : R → R → Bool

inductive FxWidth where
  | w32 | w64

def FxWidth.bits : FxWidth → Nat
  | .w32 => 32
  | .w64 => 64

variable {R : Type} (f : Floats R) (w : FxWidth)

def fixed32ToFloat (value : BitVec 32) (nIntBits : Int) : R :=
  let shiftInt := BitVec.ofInt 32 (0x3f800000 - 0x800000 * (32 - nIntBits))
  f.mulFloat (f.ofBits32 shiftInt) (f.toFloat value.toInt)

def fixed64ToDouble (value : BitVec 64) (nIntBits : Int) : R :=
  let shiftLl := BitVec.ofInt 64 (0x3ff0000000000000 - 0x0010000000000000 * (64 - nIntBits))
  f.mulDouble (f.ofBits64 shiftLl) (f.toDouble value.toInt)

def fx2float : (w : FxWidth) → BitVec w.bits → R
  | .w32, out => fixed32ToFloat f out 12
  | .w64, out => fixed64ToDouble f out 42

def nativeSub : R → R → R :=
  match w with
  | .w32 => f.subFloat
  | .w64 => f.subDouble

def errTh : R := f.ofBits32 0x3d4ccccd

/-- `(fabs(gold[j] - val) / fabs(gold[j])) > ERR_TH` -/
def outside (out : BitVec w.bits) (gold : R) : Bool :=
  f.gt (f.div (f.fabs (nativeSub f w gold (fx2float f w out))) (f.fabs gold)) (errTh f)

/-- The result is an int, and the count is unsigned. -/
def validateBuffer (len : Int) (out : Buffer (BitVec w.bits)) (gold : Buffer R) : Option Int := do
  let stop ← int (2 * len)
  let errors ← (List.range stop.toNat).foldlM (fun errors j => do
    if outside f w (← out.load j) (← gold.load j) then some (uint (errors + 1))
    else some errors) 0
  some (toInt errors)

def validateBuf (len : Int) (out : Buffer (BitVec w.bits)) (gold : Buffer R) : Option Int :=
  validateBuffer f w len out gold

/-- `const int ERROR_COUNT_TH = 0.001` drops the fraction. -/
def errorCountTh : Int := Int.tdiv 1 1000

inductive Verdict where
  | pass | fail
  deriving DecidableEq

/-- The end of main in the applications: errors is an int, and main returns it. -/
def appVerdict (errors len : Int) : Verdict × Int :=
  (if Int.tdiv errors len > errorCountTh then .fail else .pass, errors)

def unsigned (x : Int) : Nat := (x % 2 ^ 32).toNat

/-- In the bare-metal programs errors is unsigned, and so are the quotient and both sides of the
comparison. -/
def barecVerdict (errors : Nat) (len : Int) : Verdict :=
  if errors / unsigned len > unsigned errorCountTh then .fail else .pass

/-- main of fft/app behind esp_run. -/
def fftApp (len : Int) (out : Buffer (BitVec w.bits)) (gold : Buffer R) :
    Option (Verdict × Int) := do
  let errors ← validateBuffer f w len out gold
  some (appVerdict errors len)

def fftAcceleratorApp (len : Int) (out : Buffer (BitVec 32)) (gold : Buffer R) :
    Option (Verdict × Int) := do
  let errors ← validateBuffer f .w32 len out gold
  some (appVerdict errors len)

/-- main of fft/barec, where it validates what a device has computed. -/
def fftBarec (len : Int) (out : Buffer (BitVec w.bits)) (gold : Buffer R) : Option Verdict := do
  let errors ← validateBuf f w len out gold
  some (barecVerdict (unsigned errors) len)

def fftAcceleratorBarec (len : Int) (out : Buffer (BitVec 32)) (gold : Buffer R) :
    Option Verdict := do
  let errors ← validateBuf f .w32 len out gold
  some (barecVerdict (unsigned errors) len)

inductive Program where
  | fftApp (w : FxWidth) | fftBarec (w : FxWidth) | acceleratorApp | acceleratorBarec

def Program.width : Program → FxWidth
  | .fftApp w | .fftBarec w => w
  | .acceleratorApp | .acceleratorBarec => .w32

def Program.verdict : (p : Program) → Int → Buffer (BitVec p.width.bits) → Buffer R →
    Option Verdict
  | .fftApp w, len, out, gold => (FftVerdict.fftApp f w len out gold).map Prod.fst
  | .fftBarec w, len, out, gold => FftVerdict.fftBarec f w len out gold
  | .acceleratorApp, len, out, gold => (fftAcceleratorApp f len out gold).map Prod.fst
  | .acceleratorBarec, len, out, gold => fftAcceleratorBarec f len out gold

def outsideCount (len : Int) (out : Buffer (BitVec w.bits)) (gold : Buffer R) : Nat :=
  (List.range (2 * len).toNat).countP fun j => outside f w (out.cell j) (gold.cell j)

end Model

section Verdicts
variable {R : Type} {f : Floats R} {w : FxWidth} {len : Int} {out : Buffer (BitVec w.bits)}
  {gold : Buffer R} {errors : Nat}

theorem toInt_uint {n : Nat} (h : n < 2 ^ 31) : toInt (uint n) = n := by
  have hword : uint n = n := Nat.mod_eq_of_lt (Nat.lt_trans h (by decide))
  rw [hword]
  unfold toInt
  rw [Int.bmod_def]
  push_cast
  split <;> omega

theorem outsideCount_le : outsideCount f w len out gold ≤ (2 * len).toNat :=
  List.countP_le_length.trans_eq List.length_range

theorem validateBuffer_eq (hlen : 1 ≤ len) (hint : 2 * len < 2 ^ 31) (hout : 2 * len ≤ out.size)
    (hgold : 2 * len ≤ gold.size) :
    validateBuffer f w len out gold = some (outsideCount f w len out gold : Int) := by
  have hbody : ∀ j ∈ List.range (2 * len).toNat, ∀ errors, (do
      if outside f w (← out.load j) (← gold.load j) then some (uint (errors + 1))
      else some errors) =
        some (if outside f w (out.cell j) (gold.cell j) then uint (errors + 1) else errors) := by
    intro j hj errors
    have hlt := List.mem_range.mp hj
    rw [Buffer.load_eq (by omega), Buffer.load_eq (by omega)]
    rw [Option.bind_eq_bind, Option.bind_some, Option.bind_eq_bind, Option.bind_some]
    split <;> rfl
  have hrounds := foldlM_errors hbody 0
  have hzero : uint 0 = 0 := rfl
  rw [hzero, Nat.zero_add] at hrounds
  rw [validateBuffer, int_eq (by omega) hint, Option.bind_eq_bind, Option.bind_some, hrounds,
    Option.bind_eq_bind, Option.bind_some]
  -- the count does not wrap around
  have hcount : outsideCount f w len out gold ≤ (2 * len).toNat := outsideCount_le
  exact congrArg some (toInt_uint (n := outsideCount f w len out gold) (by omega))

theorem validateBuffer_overflows (hint : 2 ^ 31 ≤ 2 * len) :
    validateBuffer f w len out gold = none := by
  have hnone : int (2 * len) = none := if_neg fun h => absurd h.2 (Int.not_lt.mpr hint)
  rw [validateBuffer, hnone]
  rfl

theorem appVerdict_pass (hlen : 1 ≤ len) :
    (appVerdict errors len).1 = .pass ↔ (errors : Int) < len := by
  obtain ⟨n, rfl⟩ := Int.eq_ofNat_of_zero_le (by omega : 0 ≤ len)
  have hquot : Int.tdiv errors n = ((errors / n : Nat) : Int) := rfl
  have hth : errorCountTh = 0 := rfl
  have hdiv := Nat.div_pos_iff (a := errors) (b := n)
  rw [appVerdict, hquot, hth]
  split
  · next hfail =>
    have hle := (hdiv.mp (by omega)).2
    exact iff_of_false Verdict.noConfusion (by omega)
  · next hpass =>
    have hlt : ¬(0 < n ∧ n ≤ errors) := fun h => hpass (by have := hdiv.mpr h; omega)
    exact iff_of_true rfl (by omega)

theorem barecVerdict_pass (hlen : 1 ≤ len) (hint : len < 2 ^ 31) :
    barecVerdict errors len = .pass ↔ (errors : Int) < len := by
  have hword : unsigned len = len.toNat := by
    rw [unsigned, Int.emod_eq_of_lt (by omega) (by omega)]
  have hth : unsigned errorCountTh = 0 := rfl
  have hdiv := Nat.div_pos_iff (a := errors) (b := len.toNat)
  rw [barecVerdict, hword, hth]
  split
  · next hfail =>
    have hle := (hdiv.mp hfail).2
    exact iff_of_false Verdict.noConfusion (by omega)
  · next hpass =>
    have hlt : ¬(0 < len.toNat ∧ len.toNat ≤ errors) := fun h => hpass (hdiv.mpr h)
    exact iff_of_true rfl (by omega)

theorem fftApp_pass (hlen : 1 ≤ len) (hint : 2 * len < 2 ^ 31) (hout : 2 * len ≤ out.size)
    (hgold : 2 * len ≤ gold.size) :
    (fftApp f w len out gold).map Prod.fst = some .pass ↔
      (outsideCount f w len out gold : Int) < len := by
  rw [fftApp, validateBuffer_eq hlen hint hout hgold, Option.bind_eq_bind, Option.bind_some,
    Option.map_some, Option.some_inj]
  exact appVerdict_pass hlen

theorem fftBarec_pass (hlen : 1 ≤ len) (hint : 2 * len < 2 ^ 31) (hout : 2 * len ≤ out.size)
    (hgold : 2 * len ≤ gold.size) :
    fftBarec f w len out gold = some .pass ↔ (outsideCount f w len out gold : Int) < len := by
  have hcount : outsideCount f w len out gold ≤ (2 * len).toNat := outsideCount_le
  have hword : unsigned (outsideCount f w len out gold) = outsideCount f w len out gold := by
    rw [unsigned, Int.emod_eq_of_lt (by omega) (by omega), Int.toNat_natCast]
  rw [fftBarec, validateBuf, validateBuffer_eq hlen hint hout hgold, Option.bind_eq_bind,
    Option.bind_some, Option.some_inj, hword]
  exact barecVerdict_pass hlen (by omega)

theorem fftApp_overflows (hint : 2 ^ 31 ≤ 2 * len) : fftApp f w len out gold = none := by
  rw [fftApp, validateBuffer_overflows hint]
  rfl

theorem fftBarec_overflows (hint : 2 ^ 31 ≤ 2 * len) : fftBarec f w len out gold = none := by
  rw [fftBarec, validateBuf, validateBuffer_overflows hint]
  rfl

end Verdicts

section Reports
variable {R : Type} {f : Floats R} {p : Program} {len : Int} {out : Buffer (BitVec p.width.bits)}
  {gold : Buffer R}

/-- Every program passes exactly the outputs with less than len values outside the tolerance. -/
theorem verdict_pass (hlen : 1 ≤ len) (hint : 2 * len < 2 ^ 31) (hout : 2 * len ≤ out.size)
    (hgold : 2 * len ≤ gold.size) :
    p.verdict f len out gold = some .pass ↔
      (outsideCount f p.width len out gold : Int) < len := by
  cases p with
  | fftApp w => exact fftApp_pass hlen hint hout hgold
  | fftBarec w => exact fftBarec_pass hlen hint hout hgold
  | acceleratorApp => exact fftApp_pass hlen hint hout hgold
  | acceleratorBarec => exact fftBarec_pass hlen hint hout hgold

theorem verdict_overflows (hint : 2 ^ 31 ≤ 2 * len) : p.verdict f len out gold = none := by
  cases p with
  | fftApp w => exact congrArg (Option.map Prod.fst) (fftApp_overflows hint)
  | fftBarec w => exact fftBarec_overflows hint
  | acceleratorApp => exact congrArg (Option.map Prod.fst) (fftApp_overflows hint)
  | acceleratorBarec => exact fftBarec_overflows hint

/-- Values outside the tolerance up to `m`, and within it from there on. -/
def missing (m : Nat) (miss meet : Nat → BitVec p.width.bits) (len : Int) :
    Buffer (BitVec p.width.bits) :=
  ⟨(2 * len).toNat, fun j => if j < m then miss j else meet j⟩

theorem outsideCount_missing {m : Nat} {miss meet : Nat → BitVec p.width.bits}
    (hmiss : ∀ j < (2 * len).toNat, outside f p.width (miss j) (gold.cell j) = true)
    (hmeet : ∀ j < (2 * len).toNat, outside f p.width (meet j) (gold.cell j) = false)
    (hm : m ≤ (2 * len).toNat) :
    outsideCount f p.width len (missing m miss meet len) gold = m := by
  obtain ⟨k, hk⟩ := Nat.exists_eq_add_of_le hm
  rw [outsideCount, hk, List.range_add, List.countP_append, List.countP_map]
  have hfirst : (List.range m).countP (fun j =>
      outside f p.width ((missing m miss meet len).cell j) (gold.cell j)) = m := by
    refine (List.countP_eq_length.mpr ?_).trans List.length_range
    intro j hj
    have hlt := List.mem_range.mp hj
    have hcell : (missing m miss meet len).cell j = miss j := if_pos hlt
    rw [hcell]
    exact hmiss j (by omega)
  have hrest : (List.range k).countP ((fun j =>
      outside f p.width ((missing m miss meet len).cell j) (gold.cell j)) ∘ (m + ·)) = 0 := by
    refine List.countP_eq_zero.mpr ?_
    intro j hj
    have hlt := List.mem_range.mp hj
    have hcell : (missing m miss meet len).cell (m + j) = meet (m + j) :=
      if_neg (Nat.not_lt.mpr (Nat.le_add_right m j))
    rw [Function.comp_apply, hcell, hmeet (m + j) (by omega)]
    exact Bool.false_ne_true
  rw [hfirst, hrest, Nat.add_zero]

/-- For which lengths a report of PASS keeps to the threshold whatever the outputs are. Any
expected values will do that some output meets and some output misses. -/
theorem pass_bounded_iff (f : Floats R) (p : Program) (len : Int) (gold : Buffer R)
    (hlen : 1 ≤ len) (hgold : 2 * len ≤ gold.size)
    (hmiss : ∀ j < (2 * len).toNat, ∃ x, outside f p.width x (gold.cell j) = true)
    (hmeet : ∀ j < (2 * len).toNat, ∃ x, outside f p.width x (gold.cell j) = false) :
    (∀ out : Buffer (BitVec p.width.bits), 2 * len ≤ out.size →
        p.verdict f len out gold = some .pass →
          1000 * (outsideCount f p.width len out gold : Int) ≤ len) ↔
      len = 1 ∨ 2 ^ 31 ≤ 2 * len := by
  constructor
  · intro hbound
    by_contra hother
    have hmissAll : ∀ j, ∃ x, j < (2 * len).toNat → outside f p.width x (gold.cell j) = true := by
      intro j
      by_cases hj : j < (2 * len).toNat
      · obtain ⟨x, hx⟩ := hmiss j hj
        exact ⟨x, fun _ => hx⟩
      · exact ⟨0, fun h => absurd h hj⟩
    have hmeetAll : ∀ j, ∃ x, j < (2 * len).toNat → outside f p.width x (gold.cell j) = false := by
      intro j
      by_cases hj : j < (2 * len).toNat
      · obtain ⟨x, hx⟩ := hmeet j hj
        exact ⟨x, fun _ => hx⟩
      · exact ⟨0, fun h => absurd h hj⟩
    choose miss hmiss using hmissAll
    choose meet hmeet using hmeetAll
    -- all but one of len values are outside the tolerance
    have hcount := outsideCount_missing (m := (len - 1).toNat) hmiss hmeet (by omega)
    have hroom : 2 * len ≤ (missing (len - 1).toNat miss meet len).size := by
      change 2 * len ≤ ((2 * len).toNat : Int)
      omega
    have hpass := (verdict_pass hlen (by omega) hroom hgold).mpr (by rw [hcount]; omega)
    have hfew := hbound _ hroom hpass
    rw [hcount] at hfew
    omega
  · intro hcond out hout hpass
    cases hcond with
    | inl hone =>
      have hlt := (verdict_pass hlen (by omega) hout hgold).mp hpass
      omega
    | inr hwide =>
      rw [verdict_overflows hwide] at hpass
      cases hpass

/-- The value of a float or double with these bits, when it is positive and normal. -/
def normal (mantissa bias bits : Nat) : ℚ :=
  ((2 ^ mantissa + bits % 2 ^ mantissa) * 2 ^ (bits / 2 ^ mantissa) : Nat) /
    (2 ^ (mantissa + bias) : Nat)

/-- Floats without rounding, which is what they are on small powers of two. -/
def exactFloats : Floats ℚ where
  ofBits32 b := normal 23 127 b.toNat
  ofBits64 b := normal 52 1023 b.toNat
  toFloat x := x
  toDouble x := x
  mulFloat x y := x * y
  mulDouble x y := x * y
  subFloat x y := x - y
  subDouble x y := x - y
  fabs x := |x|
  div x y := x / y
  gt x y := decide (y < x)

/-- One complex value, both parts of which are 1, and an output that is right. -/
theorem pass_bounded_one :
    Program.acceleratorApp.verdict exactFloats 1 ⟨2, fun _ => 0x100000#32⟩ ⟨2, fun _ => 1⟩ =
        some .pass ∧
      1000 * (outsideCount exactFloats .w32 1 ⟨2, fun _ => 0x100000#32⟩ ⟨2, fun _ => 1⟩ : Int) ≤
        1 := by
  have hpass : Program.acceleratorApp.verdict exactFloats 1 ⟨2, fun _ => 0x100000#32⟩
      ⟨2, fun _ => 1⟩ = some .pass := by decide +kernel
  have hmiss : outside exactFloats .w32 0#32 1 = true := by decide +kernel
  have hmeet : outside exactFloats .w32 0x100000#32 1 = false := by decide +kernel
  have hbound := (pass_bounded_iff exactFloats .acceleratorApp 1 ⟨2, fun _ => 1⟩ (by decide)
    (by decide) (fun _ _ => ⟨0#32, hmiss⟩) fun _ _ => ⟨0x100000#32, hmeet⟩).mpr (Or.inl rfl)
  exact ⟨hpass, hbound ⟨2, fun _ => 0x100000#32⟩ (by decide) hpass⟩

/-- The first of 64 values is 0 instead of 1, and the program reports PASS. -/
theorem fftAcceleratorApp_passes :
    fftAcceleratorApp exactFloats 32 ⟨64, fun j => if j = 0 then 0#32 else 0x100000#32⟩
        ⟨64, fun _ => 1⟩ = some (.pass, 1) ∧
      ¬1000 * (outsideCount exactFloats .w32 32
        ⟨64, fun j => if j = 0 then 0#32 else 0x100000#32⟩ ⟨64, fun _ => 1⟩ : Int) ≤ 32 := by
  decide +kernel

end Reports
end EspDrivers.FftVerdict
