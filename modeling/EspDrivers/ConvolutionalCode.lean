import EspDrivers.Trellis
import EspDrivers.ViterbiDecoder

/-! The code that the decoder is for, and the decoding in exact arithmetic. A state holds the
last six bits; with the next bit they form the register that the two generator polynomials
read. The gain of a step counts the symbols that have been received as the encoder sends them. -/
namespace EspDrivers.Viterbi
open Trellis

abbrev State := Fin 64

section Labels

def parity (r : Nat) : Bool := (List.range 7).foldr (fun i p => r.testBit i ^^ p) false

def label (poly r : Nat) : Bool := parity (r &&& poly)

theorem parity_xor (r t : Nat) : parity (r ^^^ t) = (parity r ^^ parity t) := by
  unfold parity
  induction List.range 7 with
  | nil => rfl
  | cons i l ih =>
    simp only [List.foldr_cons]
    rw [ih, Nat.testBit_xor, Bool.xor_assoc, Bool.xor_assoc, Bool.xor_left_comm (t.testBit i)]

theorem label_xor (poly r t : Nat) : label poly (r ^^^ t) = (label poly r ^^ label poly t) := by
  rw [label, Nat.and_xor_distrib_right, parity_xor]
  rfl

def register (r s : State) : Nat := 2 * r.val + s.val % 2

def oldest (r : State) : Nat := r.val / 32

def follow (r : State) (bit : Bool) : State := ⟨(2 * r.val + bit.toNat) % 64, by omega⟩

def lower (s : State) : State := ⟨s.val / 2, by omega⟩
def upper (s : State) : State := ⟨s.val / 2 + 32, by omega⟩

def Edge (r s : State) : Prop := s.val / 2 = r.val % 32

theorem edge_iff {r s : State} : Edge r s ↔ r = lower s ∨ r = upper s := by
  simp only [Edge, lower, upper, Fin.ext_iff]
  omega

theorem edge_follow (r : State) (bit : Bool) : Edge r (follow r bit) := by
  have hbit := Bool.toNat_le bit
  simp only [Edge, follow]
  omega

theorem register_lower (s : State) : register (lower s) s = s.val := by
  simp only [register, lower]
  omega

theorem register_upper (s : State) : register (upper s) s = s.val + 64 := by
  simp only [register, upper]
  omega

end Labels

section Symbols

def agree (symbol : UInt8) (bit : Bool) : Nat := if symbol.toNat = bit.toNat then 1 else 0

def gainOf (a b : UInt8) (r s : State) : Nat :=
  agree a (label polys0 (register r s)) + agree b (label polys1 (register r s))

/-- Bits and erasures, of which a step has one at most. -/
def Received (a b : UInt8) : Prop := a.toNat ≤ 2 ∧ b.toNat ≤ 2 ∧ ¬(a = 2 ∧ b = 2)

instance (a b : UInt8) : Decidable (Received a b) := inferInstanceAs (Decidable (_ ∧ _))

theorem agree_le (symbol : UInt8) (bit : Bool) : agree symbol bit ≤ 1 := by
  unfold agree
  split <;> omega

theorem gainOf_le (a b : UInt8) (r s : State) : gainOf a b r s ≤ 2 :=
  Nat.add_le_add (agree_le a _) (agree_le b _)

/-- The graph for a stream of symbols, two for each step. -/
def received (sym : Nat → UInt8) : Graph State where
  Edge := Edge
  gain n := gainOf (sym (2 * n)) (sym (2 * n + 1))

end Symbols

section Exact

/-- The predecessor that is selected: the upper one when both are as good. -/
def select (m : State → Nat) (g : State → State → Nat) (s : State) : State :=
  if m (upper s) + g (upper s) s < m (lower s) + g (lower s) s then lower s else upper s

def addCompareSelect (m : State → Nat) (g : State → State → Nat) (s : State) : Nat :=
  m (select m g s) + g (select m g s) s

variable (init : State → Nat) (sym : Nat → UInt8)

def metrics : Nat → State → Nat
  | 0 => init
  | n + 1 => addCompareSelect (metrics n) ((received sym).gain n)

def survivors (n : Nat) : State → State := select (metrics init sym n) ((received sym).gain n)

theorem table (T : Nat) :
    Table (received sym) T (metrics init sym) (survivors init sym) := by
  constructor
  · intro n _ s
    rw [survivors, select]
    split
    · exact edge_iff.mpr (Or.inl rfl)
    · exact edge_iff.mpr (Or.inr rfl)
  · intro n _ s
    rfl
  · intro n _ r s hedge
    change _ ≤ addCompareSelect _ _ s
    rw [addCompareSelect, select]
    cases edge_iff.mp hedge with
    | inl h => subst h; split <;> omega
    | inr h => subst h; split <;> omega

/-- A constant that is taken off all the metrics goes through unchanged. -/
theorem addCompareSelect_add {m m' : State → Nat} {c : Nat} (h : ∀ s, m' s + c = m s)
    (g : State → State → Nat) (s : State) :
    addCompareSelect m' g s + c = addCompareSelect m g s ∧ select m' g s = select m g s := by
  have hiff : m' (upper s) + g (upper s) s < m' (lower s) + g (lower s) s ↔
      m (upper s) + g (upper s) s < m (lower s) + g (lower s) s := by
    have hlow := h (lower s)
    have hupp := h (upper s)
    omega
  have hselect : select m' g s = select m g s := by simp only [select, hiff]
  refine ⟨?_, hselect⟩
  have hprev := h (select m g s)
  rw [addCompareSelect, addCompareSelect, hselect]
  omega

end Exact

section Mixing

theorem mixes (sym : Nat → UInt8) : (received sym).Mixes 6 := by
  intro a r s
  refine ⟨fun n => ⟨(r.val * 2 ^ (n - a) + s.val / 2 ^ (6 - (n - a))) % 64,
    Nat.mod_lt _ (by decide)⟩, ?_, ?_, ?_⟩
  · have hs : s.val / 64 = 0 := Nat.div_eq_of_lt s.isLt
    exact Fin.ext (by simp [hs, Nat.mod_eq_of_lt r.isLt])
  · have hmod : (r.val * 2 ^ (a + 6 - a) + s.val / 2 ^ (6 - (a + 6 - a))) % 64 = s.val := by
      rw [Nat.add_sub_cancel_left]
      have := s.isLt
      omega
    exact Fin.ext hmod
  · intro n hle hlt
    obtain ⟨d, rfl⟩ := Nat.exists_eq_add_of_le hle
    have hd : d < 6 := by omega
    have hnext : a + d + 1 - a = d + 1 := by omega
    simp only [received, Edge, hnext, Nat.add_sub_cancel_left]
    have hr := r.isLt
    have hs := s.isLt
    interval_cases d <;> simp only [Nat.reducePow, Nat.reduceSub, Nat.reduceAdd] <;> omega

theorem metrics_spread (init : State → Nat) (sym : Nat → UInt8) {n : Nat} (h : 6 ≤ n)
    (r s : State) : metrics init sym n r ≤ metrics init sym n s + 12 :=
  (table init sym n).spread (mixes sym) (fun _ _ _ => gainOf_le _ _ _ _) h le_rfl r s

end Mixing

end EspDrivers.Viterbi
