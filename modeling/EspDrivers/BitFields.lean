import Mathlib

/-! Words made of fields: each field has a place and a value, and the word is the union of
the shifted values. Fields that do not overlap can be read back, in whatever order they
were put in. -/
namespace EspDrivers.BitFields

/-- The low `width` bits of `value`, from bit `pos` on. -/
structure Field where
  pos : Nat
  width : Nat
  value : Nat

namespace Field

def Covers (f : Field) (i : Nat) : Prop := f.pos ≤ i ∧ i < f.pos + f.width

instance (f : Field) (i : Nat) : Decidable (f.Covers i) := inferInstanceAs (Decidable (_ ∧ _))

def Apart (f g : Field) : Prop := f.pos + f.width ≤ g.pos ∨ g.pos + g.width ≤ f.pos

def word (w : Nat) (f : Field) : BitVec w := BitVec.ofNat w (f.value % 2 ^ f.width) <<< f.pos

theorem getLsbD_word (w : Nat) (f : Field) (i : Nat) : (f.word w).getLsbD i =
    (decide (i < w) && (decide (f.Covers i) && f.value.testBit (i - f.pos))) := by
  rw [word, BitVec.getLsbD_shiftLeft, BitVec.getLsbD_ofNat, Nat.testBit_mod_two_pow]
  by_cases hw : i < w
  · by_cases hlo : f.pos ≤ i
    · have hsub : i - f.pos < w := by omega
      have hhi : i - f.pos < f.width ↔ f.Covers i := by
        rw [Covers]
        omega
      simp [hw, hsub, hhi, Nat.not_lt.mpr hlo]
    · have hnot : ¬ f.Covers i := fun h => hlo h.1
      simp [hnot, Nat.lt_of_not_le hlo]
  · simp [hw]

end Field

def orAll {w : Nat} (xs : List (BitVec w)) : BitVec w := xs.foldl (· ||| ·) 0#w

def pack (w : Nat) (fs : List Field) : BitVec w := orAll (fs.map (Field.word w))

section Words
variable {w : Nat} {xs ys : List (BitVec w)}

theorem foldl_or (xs : List (BitVec w)) (x : BitVec w) : xs.foldl (· ||| ·) x = x ||| orAll xs := by
  induction xs generalizing x with
  | nil => simp [orAll]
  | cons y ys ih =>
    have hy : orAll (y :: ys) = y ||| orAll ys := by
      rw [orAll, List.foldl_cons, ih, BitVec.zero_or]
    rw [List.foldl_cons, ih, hy, BitVec.or_assoc]

theorem orAll_cons (x : BitVec w) (xs : List (BitVec w)) : orAll (x :: xs) = x ||| orAll xs := by
  rw [orAll, List.foldl_cons, foldl_or, BitVec.zero_or]

theorem orAll_perm (h : xs.Perm ys) : orAll xs = orAll ys := by
  induction h with
  | nil => rfl
  | cons x _ ih => rw [orAll_cons, orAll_cons, ih]
  | swap x y l =>
    rw [orAll_cons, orAll_cons, orAll_cons, orAll_cons, ← BitVec.or_assoc, ← BitVec.or_assoc,
      BitVec.or_comm x y]
  | trans _ _ ih ih' => exact ih.trans ih'

theorem getLsbD_orAll (xs : List (BitVec w)) (i : Nat) :
    (orAll xs).getLsbD i = xs.any fun x => x.getLsbD i := by
  induction xs with
  | nil => simp [orAll]
  | cons x xs ih => rw [orAll_cons, BitVec.getLsbD_or, ih, List.any_cons]

end Words

section Pack
variable {w : Nat} {fs gs : List Field} {f : Field} {i : Nat}

theorem pack_perm (h : fs.Perm gs) : pack w fs = pack w gs := orAll_perm (h.map _)

theorem getLsbD_pack : (pack w fs).getLsbD i = fs.any fun f => (f.word w).getLsbD i := by
  rw [pack, getLsbD_orAll, List.any_map]
  rfl

theorem pack_outside (h : ∀ f ∈ fs, ¬ f.Covers i) : (pack w fs).getLsbD i = false := by
  rw [getLsbD_pack, List.any_eq_false]
  intro f hf
  rw [Field.getLsbD_word]
  simp [h f hf]

theorem not_covers (h : f.Apart g) (hi : f.Covers i) : ¬ g.Covers i := by
  intro hg
  rw [Field.Apart] at h
  rw [Field.Covers] at hi hg
  omega

/-- A field that overlaps no other is found again as it was put in. -/
theorem getLsbD_field (h : fs.Pairwise Field.Apart) (hf : f ∈ fs) (hw : f.pos + f.width ≤ w)
    (hi : i < f.width) : (pack w fs).getLsbD (f.pos + i) = f.value.testBit i := by
  have hcov : f.Covers (f.pos + i) := ⟨Nat.le_add_right _ _, Nat.add_lt_add_left hi _⟩
  have hother : ∀ g ∈ fs, g ≠ f → (g.word w).getLsbD (f.pos + i) = false := by
    intro g hg hne
    have hsymm : Std.Symm Field.Apart := ⟨fun _ _ hab => hab.symm⟩
    have hap : f.Apart g := h.forall hf hg (Ne.symm hne)
    rw [Field.getLsbD_word]
    simp [not_covers hap hcov]
  have hself : (f.word w).getLsbD (f.pos + i) = f.value.testBit i := by
    have hlt : f.pos + i < w := by omega
    rw [Field.getLsbD_word, Nat.add_sub_cancel_left]
    simp [hcov, hlt]
  rw [getLsbD_pack]
  cases hbit : f.value.testBit i with
  | true =>
    refine List.any_eq_true.mpr ⟨f, hf, ?_⟩
    rw [hself, hbit]
  | false =>
    refine List.any_eq_false.mpr ?_
    intro g hg
    by_cases hgf : g = f
    · rw [hgf, hself, hbit]
      exact Bool.false_ne_true
    · rw [hother g hg hgf]
      exact Bool.false_ne_true

theorem extract_pack (h : fs.Pairwise Field.Apart) (hf : f ∈ fs) (hw : f.pos + f.width ≤ w) :
    (pack w fs).extractLsb' f.pos f.width = BitVec.ofNat f.width f.value := by
  apply BitVec.eq_of_getLsbD_eq
  intro i hi
  rw [BitVec.getLsbD_extractLsb', BitVec.getLsbD_ofNat, getLsbD_field h hf hw hi]

theorem pack_append (fs gs : List Field) : pack w (fs ++ gs) = pack w fs ||| pack w gs := by
  rw [pack, List.map_append, orAll, List.foldl_append, foldl_or]
  rfl

end Pack

end EspDrivers.BitFields
