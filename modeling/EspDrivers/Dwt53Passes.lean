import EspDrivers.Dwt53

/-! The passes of the wavelet transform as permutations of lifted images. -/
namespace EspDrivers.Dwt53
open Buffers Lifting

section Transposed

/-- The column of a row that the first or the second half of the columns is taken from. -/
def unsplit (ncols c : Nat) : Nat :=
  if c < ncols / 2 then 2 * c else 2 * (c - ncols / 2) + 1

/-- Where a column goes: the even ones in front. -/
def split (ncols j : Nat) : Nat := if j % 2 = 0 then j / 2 else j / 2 + ncols / 2

def source (nrows ncols k : Nat) : Nat := k % nrows * ncols + unsplit ncols (k / nrows)
def target (nrows ncols k : Nat) : Nat := split ncols (k % ncols) * nrows + k / ncols

def InColumn (nrows ncols i k : Nat) : Prop := k % nrows = i ∧ k / nrows < ncols

instance (nrows ncols i : Nat) : DecidablePred (InColumn nrows ncols i) :=
  fun k => inferInstanceAs (Decidable (k % nrows = i ∧ k / nrows < ncols))

variable {nrows ncols i j c k : Nat} {x z : Nat → Pixel}

theorem unsplit_lt (heven : 2 ∣ ncols) (h : c < ncols) : unsplit ncols c < ncols := by
  by_cases hlow : c < ncols / 2
  · rw [unsplit, if_pos hlow]
    omega
  · rw [unsplit, if_neg hlow]
    omega

theorem split_lt (heven : 2 ∣ ncols) (h : j < ncols) : split ncols j < ncols := by
  by_cases hpar : j % 2 = 0
  · rw [split, if_pos hpar]
    omega
  · rw [split, if_neg hpar]
    omega

theorem split_unsplit (ncols c : Nat) : split ncols (unsplit ncols c) = c := by
  by_cases hlow : c < ncols / 2
  · rw [unsplit, if_pos hlow, split, if_pos (by omega)]
    omega
  · rw [unsplit, if_neg hlow, split, if_neg (by omega)]
    omega

theorem unsplit_split (heven : 2 ∣ ncols) (h : j < ncols) : unsplit ncols (split ncols j) = j := by
  by_cases hpar : j % 2 = 0
  · rw [split, if_pos hpar, unsplit, if_pos (by omega)]
    omega
  · rw [split, if_neg hpar, unsplit, if_neg (by omega)]
    omega

theorem source_place (hi : i < nrows) :
    source nrows ncols (c * nrows + i) = i * ncols + unsplit ncols c := by
  obtain ⟨hdiv, hmod⟩ := (place_iff hi).mp (rfl : c * nrows + i = c * nrows + i)
  rw [source, hdiv, hmod]

theorem source_row (heven : 2 ∣ ncols) (h : k / nrows < ncols) :
    source nrows ncols k / ncols = k % nrows :=
  ((place_iff (unsplit_lt heven h)).mp rfl).1

theorem target_place (hj : j < ncols) :
    target nrows ncols (i * ncols + j) = split ncols j * nrows + i := by
  obtain ⟨hdiv, hmod⟩ := (place_iff hj).mp (rfl : i * ncols + j = i * ncols + j)
  rw [target, hdiv, hmod]

theorem exists_place (h : k < nrows * ncols) :
    ∃ i < nrows, ∃ j < ncols, k = i * ncols + j := by
  have hpos : 0 < ncols := Nat.pos_of_mul_pos_left (Nat.zero_lt_of_lt h)
  exact ⟨k / ncols, (Nat.div_lt_iff_lt_mul hpos).mpr h, k % ncols, Nat.mod_lt k hpos,
    (Nat.div_add_mod' k ncols).symm⟩

theorem source_target (heven : 2 ∣ ncols) (h : k < nrows * ncols) :
    source nrows ncols (target nrows ncols k) = k := by
  obtain ⟨i, hi, j, hj, rfl⟩ := exists_place h
  rw [target_place hj, source_place hi, unsplit_split heven hj]

theorem target_source (heven : 2 ∣ ncols) (h : k < nrows * ncols) :
    target nrows ncols (source nrows ncols k) = k := by
  rw [Nat.mul_comm] at h
  obtain ⟨c, hc, i, hi, rfl⟩ := exists_place h
  rw [source_place hi, target_place (unsplit_lt heven hc), split_unsplit]

theorem source_lt (heven : 2 ∣ ncols) (h : k < nrows * ncols) :
    source nrows ncols k < nrows * ncols := by
  rw [Nat.mul_comm] at h
  obtain ⟨c, hc, i, hi, rfl⟩ := exists_place h
  rw [source_place hi]
  exact place_lt hi (unsplit_lt heven hc)

theorem target_lt (heven : 2 ∣ ncols) (h : k < nrows * ncols) :
    target nrows ncols k < nrows * ncols := by
  obtain ⟨i, hi, j, hj, rfl⟩ := exists_place h
  rw [target_place hj, Nat.mul_comm nrows]
  exact place_lt (split_lt heven hj) hi

theorem setTwo_eq {size a b : Nat} (hsize : size ≤ 2 ^ 31) (ha : a < size) (hb : b < size)
    (new cell : Nat → Pixel) :
    ((set ⟨size, cell⟩ a (new a)).bind fun data => set data b (new b)) =
      some ⟨size, fun k => if k = a ∨ k = b then new k else cell k⟩ := by
  rw [set_eq hsize ha, Option.bind_some, set_eq hsize hb]
  congr 2
  funext k
  rw [Function.update_apply, Function.update_apply]
  by_cases hkb : k = b
  · rw [if_pos hkb, if_pos (Or.inr hkb), hkb]
  · by_cases hka : k = a
    · rw [if_neg hkb, if_pos hka, if_pos (Or.inl hka), hka]
    · rw [if_neg hkb, if_neg hka, if_neg fun h => h.elim hka hkb]

theorem splitRow_eq (heven : 2 ∣ ncols) (hi : i < nrows) (hsize : nrows * ncols ≤ 2 ^ 31) :
    splitRow nrows ncols i ⟨nrows * ncols, x⟩ ⟨nrows * ncols, z⟩ = some ⟨nrows * ncols,
      fun k => if InColumn nrows ncols i k then x (source nrows ncols k) else z k⟩ := by
  have hcolumn : ∀ {c}, c < ncols → c * nrows + i < nrows * ncols := by
    intro c hc
    rw [Nat.mul_comm nrows]
    exact place_lt hc hi
  have hsame : ∀ {c k}, k = c * nrows + i ↔ k / nrows = c ∧ k % nrows = i := place_iff hi
  have hloop : splitRow nrows ncols i ⟨nrows * ncols, x⟩ ⟨nrows * ncols, z⟩ =
      some ⟨nrows * ncols, overwritten
        (fun j k => k = j * nrows + i ∨ k = (j + ncols / 2) * nrows + i) (List.range (ncols / 2))
        (fun k => x (source nrows ncols k)) z⟩ := by
    refine foldlM_overwrites ?_ ?_
    · refine List.nodup_range.imp_of_mem ?_
      intro j j' hj hj' hne k hk hk'
      have hlt := List.mem_range.mp hj
      have hlt' := List.mem_range.mp hj'
      simp only [hsame] at hk hk'
      omega
    · intro j hj cell _ _
      have hlt := List.mem_range.mp hj
      have hlow := @source_place nrows ncols i j hi
      have hhigh := @source_place nrows ncols i (j + ncols / 2) hi
      have heven' : unsplit ncols j = 2 * j := if_pos hlt
      have hodd : unsplit ncols (j + ncols / 2) = 2 * j + 1 := by
        rw [unsplit, if_neg (by omega), Nat.add_sub_cancel]
      rw [heven'] at hlow
      rw [hodd, ← Nat.add_assoc] at hhigh
      have hrow := place_lt hi (show 2 * j + 1 < ncols by omega)
      rw [← hhigh, ← hlow, get_eq hsize (by omega), get_eq hsize (by omega)]
      exact setTwo_eq hsize (hcolumn (by omega)) (hcolumn (by omega))
        (fun k => x (source nrows ncols k)) cell
  have hiff : ∀ k, (∃ j ∈ List.range (ncols / 2),
      k = j * nrows + i ∨ k = (j + ncols / 2) * nrows + i) ↔ InColumn nrows ncols i k := by
    intro k
    simp only [hsame, List.mem_range]
    constructor
    · rintro ⟨j, hj, ⟨hdiv, hmod⟩ | ⟨hdiv, hmod⟩⟩
      · exact ⟨hmod, by omega⟩
      · exact ⟨hmod, by omega⟩
    · rintro ⟨hmod, hlt⟩
      by_cases hlow : k / nrows < ncols / 2
      · exact ⟨k / nrows, hlow, Or.inl ⟨rfl, hmod⟩⟩
      · exact ⟨k / nrows - ncols / 2, by omega, Or.inr ⟨by omega, hmod⟩⟩
  rw [hloop, overwritten_eq hiff]

theorem mergeRow_eq (hn : 2 ≤ ncols) (heven : 2 ∣ ncols) (hi : i < nrows)
    (hsize : nrows * ncols ≤ 2 ^ 31) :
    mergeRow nrows ncols i ⟨nrows * ncols, x⟩ ⟨nrows * ncols, z⟩ = some ⟨nrows * ncols,
      onRow ncols i (fun k => x (target nrows ncols k)) z⟩ := by
  have hcolumn : ∀ {c}, c < ncols → c * nrows + i < nrows * ncols := by
    intro c hc
    rw [Nat.mul_comm nrows]
    exact place_lt hc hi
  have hloop : mergeRow nrows ncols i ⟨nrows * ncols, x⟩ ⟨nrows * ncols, z⟩ =
      some ⟨nrows * ncols, overwritten
        (fun j k => k = i * ncols + 2 * j ∨ k = i * ncols + 2 * j + 1) (List.range (ncols / 2))
        (fun k => x (target nrows ncols k)) z⟩ := by
    refine foldlM_overwrites ?_ ?_
    · refine List.nodup_range.imp ?_
      intro j j' hne k hk hk'
      omega
    · intro j hj cell _ _
      have hlt := List.mem_range.mp hj
      have hlow := @target_place nrows ncols i (2 * j) (by omega)
      have hhigh := @target_place nrows ncols i (2 * j + 1) (by omega)
      have heven' : split ncols (2 * j) = j := by
        rw [split, if_pos (by omega)]
        omega
      have hodd : split ncols (2 * j + 1) = j + ncols / 2 := by
        rw [split, if_neg (by omega)]
        omega
      rw [heven'] at hlow
      rw [hodd, ← Nat.add_assoc] at hhigh
      have hrow := place_lt hi (show 2 * j + 1 < ncols by omega)
      have hcolLow := hcolumn (show j < ncols by omega)
      have hcolHigh := hcolumn (show j + ncols / 2 < ncols by omega)
      rw [← hhigh, ← hlow, get_eq hsize (by omega), get_eq hsize (by omega)]
      exact setTwo_eq hsize (by omega) (by omega) (fun k => x (target nrows ncols k)) cell
  have hiff : ∀ k, (∃ j ∈ List.range (ncols / 2),
      k = i * ncols + 2 * j ∨ k = i * ncols + 2 * j + 1) ↔ k / ncols = i := by
    intro k
    constructor
    · rintro ⟨j, hj, hk⟩
      have hlt := List.mem_range.mp hj
      cases hk with
      | inl hk => exact ((place_iff (by omega)).mp hk).1
      | inr hk => exact ((@place_iff ncols i (2 * j + 1) k (by omega)).mp (by omega)).1
    · intro hdiv
      have hlt := Nat.mod_lt k (show 0 < ncols by omega)
      have hk := (place_iff hlt).mpr ⟨hdiv, rfl⟩
      refine ⟨k % ncols / 2, List.mem_range.mpr (by omega), ?_⟩
      omega
  rw [hloop, overwritten_eq hiff]
  rfl

end Transposed

section Passes
variable {nrows ncols i : Nat} {x y z : Nat → Pixel} {op : Pixel → Pixel → Pixel}
  {S : Nat → Prop} [DecidablePred S] {p : (Nat → Pixel) → Nat → Pixel}

theorem onRow_self {k : Nat} (hk : k / ncols = i) : onRow ncols i y x k = y k := if_pos hk

theorem onRow_of_ne {k : Nat} (hk : k / ncols ≠ i) : onRow ncols i y x k = x k := if_neg hk

theorem onRow_lift (h : FromOutside (fun k => k / ncols = i) S p) :
    onRow ncols i (lift op S p (onRow ncols i y x)) (onRow ncols i y x) =
      onRow ncols i (lift op S p y) x := by
  funext k
  by_cases hk : k / ncols = i
  · rw [onRow_self hk, onRow_self hk]
    exact lift_congr h (fun j hj => onRow_self hj) hk
  · rw [onRow_of_ne hk, onRow_of_ne hk, onRow_of_ne hk]

theorem liftRow_eq (hn : 2 ≤ ncols) (heven : 2 ∣ ncols) (hi : i < nrows)
    (hsize : nrows * ncols ≤ 2 ^ 31) :
    (predictRow (· - ·) ncols i ⟨nrows * ncols, x⟩).bind (updateRow (· + ·) ncols i) =
      some ⟨nrows * ncols, onRow ncols i (forward ncols x) x⟩ := by
  rw [predictRow_eq hn heven hi hsize, Option.bind_some, updateRow_eq hn heven hi hsize,
    onRow_lift (correction_outside hn heven), forward]

theorem unliftRow_eq (hn : 2 ≤ ncols) (heven : 2 ∣ ncols) (hi : i < nrows)
    (hsize : nrows * ncols ≤ 2 ^ 31) :
    (updateRow (· - ·) ncols i ⟨nrows * ncols, x⟩).bind (predictRow (· + ·) ncols i) =
      some ⟨nrows * ncols, onRow ncols i (backward ncols x) x⟩ := by
  rw [updateRow_eq hn heven hi hsize, Option.bind_some, predictRow_eq hn heven hi hsize,
    onRow_lift (prediction_outside hn), backward]

def belowRow (ncols n : Nat) (new old : Nat → Pixel) : Nat → Pixel :=
  fun k => if k / ncols < n then new k else old k

theorem onRow_belowRow : onRow ncols i y (belowRow ncols i y x) = belowRow ncols (i + 1) y x := by
  funext k
  rw [onRow, belowRow, belowRow]
  by_cases hk : k / ncols = i
  · rw [if_pos hk, if_pos (by omega)]
  · by_cases hlt : k / ncols < i
    · rw [if_neg hk, if_pos hlt, if_pos (by omega)]
    · rw [if_neg hk, if_neg hlt, if_neg (by omega)]

theorem belowRow_zero : belowRow ncols 0 y x = x := by
  funext k
  exact if_neg (Nat.not_lt_zero _)

theorem belowRow_self {k : Nat} (hk : k / ncols = i) : belowRow ncols i y x k = x k :=
  if_neg (by omega)

theorem onRow_congr (h : ∀ k, k / ncols = i → y k = z k) :
    onRow ncols i y x = onRow ncols i z x := by
  funext k
  rw [onRow, onRow]
  split
  · next hk => exact h k hk
  · rfl

def pass (nrows ncols : Nat) (x z : Nat → Pixel) : Nat → Pixel :=
  fun k => if k < nrows * ncols then forward ncols x (source nrows ncols k) else z k

def unpass (nrows ncols : Nat) (x z : Nat → Pixel) : Nat → Pixel :=
  fun k => if k < nrows * ncols then
    backward ncols (fun k => x (target nrows ncols k)) k else z k

theorem below_rows {k : Nat} (hn : 0 < ncols) : k / ncols < nrows ↔ k < nrows * ncols :=
  Nat.div_lt_iff_lt_mul hn

def belowColumn (nrows ncols i : Nat) (new old : Nat → Pixel) : Nat → Pixel :=
  fun k => if k % nrows < i ∧ k / nrows < ncols then new k else old k

theorem belowColumn_zero : belowColumn nrows ncols 0 y x = x := by
  funext k
  exact if_neg fun h => Nat.not_lt_zero _ h.1

theorem belowColumn_succ : (fun k => if InColumn nrows ncols i k then y k else
    belowColumn nrows ncols i y x k) = belowColumn nrows ncols (i + 1) y x := by
  funext k
  rw [belowColumn, belowColumn]
  by_cases hcol : InColumn nrows ncols i k
  · have hnext : k % nrows < i + 1 ∧ k / nrows < ncols := ⟨Nat.lt_succ_of_le hcol.1.le, hcol.2⟩
    rw [if_pos hcol, if_pos hnext]
  · have hsame : (k % nrows < i + 1 ∧ k / nrows < ncols) ↔ k % nrows < i ∧ k / nrows < ncols := by
      unfold InColumn at hcol
      omega
    rw [if_neg hcol]
    simp only [hsame]

theorem dwt53RowTranspose_eq (hn : 2 ≤ ncols) (heven : 2 ∣ ncols)
    (hsize : nrows * ncols ≤ 2 ^ 31) :
    dwt53RowTranspose ⟨nrows * ncols, x⟩ ⟨nrows * ncols, z⟩ nrows ncols =
      some (⟨nrows * ncols, belowRow ncols nrows (forward ncols x) x⟩,
        ⟨nrows * ncols, pass nrows ncols x z⟩) := by
  have hends : ∃ s, dwt53RowTranspose ⟨nrows * ncols, x⟩ ⟨nrows * ncols, z⟩ nrows ncols = some s ∧
      s = (⟨nrows * ncols, belowRow ncols nrows (forward ncols x) x⟩,
        ⟨nrows * ncols, belowColumn nrows ncols nrows
          (fun k => forward ncols x (source nrows ncols k)) z⟩) := by
    refine foldlM_range_ends nrows (fun i (s : Buffer Pixel × Buffer Pixel) =>
      s = (⟨nrows * ncols, belowRow ncols i (forward ncols x) x⟩,
        ⟨nrows * ncols, belowColumn nrows ncols i
          (fun k => forward ncols x (source nrows ncols k)) z⟩)) ?_ ?_
    · rw [belowRow_zero, belowColumn_zero]
    · rintro i hi s rfl
      refine ⟨_, ?_, rfl⟩
      have hrow := @liftRow_eq nrows ncols i (belowRow ncols i (forward ncols x) x) hn heven hi hsize
      have hsame : onRow ncols i (forward ncols (belowRow ncols i (forward ncols x) x))
          (belowRow ncols i (forward ncols x) x) = belowRow ncols (i + 1) (forward ncols x) x := by
        rw [← onRow_belowRow]
        exact onRow_congr fun k hk => forward_congr hn heven (fun j hj => belowRow_self hj) hk
      have hsplit := @splitRow_eq nrows ncols i (belowRow ncols (i + 1) (forward ncols x) x)
        (belowColumn nrows ncols i (fun k => forward ncols x (source nrows ncols k)) z) heven hi hsize
      have hcolumn : (fun k => if InColumn nrows ncols i k then
          belowRow ncols (i + 1) (forward ncols x) x (source nrows ncols k) else
            belowColumn nrows ncols i (fun k => forward ncols x (source nrows ncols k)) z k) =
          belowColumn nrows ncols (i + 1) (fun k => forward ncols x (source nrows ncols k)) z := by
        rw [← belowColumn_succ]
        funext k
        by_cases hk : InColumn nrows ncols i k
        · have hin : source nrows ncols k / ncols < i + 1 := by
            rw [source_row heven hk.2, hk.1]
            exact Nat.lt_succ_self i
          rw [if_pos hk, if_pos hk, belowRow, if_pos hin]
        · rw [if_neg hk, if_neg hk]
      rw [hsame] at hrow
      rw [hcolumn] at hsplit
      refine (Option.bind_assoc _ _ _).symm.trans ?_
      rw [hrow, Option.bind_some, hsplit]
      rfl
  obtain ⟨s, hs, rfl⟩ := hends
  rw [hs]
  congr 3
  funext k
  have hin : (k % nrows < nrows ∧ k / nrows < ncols) ↔ k < nrows * ncols := by
    constructor
    · intro h
      have hpos : 0 < nrows := Nat.zero_lt_of_lt h.1
      rw [Nat.mul_comm]
      exact (below_rows hpos).mp h.2
    · intro h
      have hpos : 0 < nrows := Nat.pos_of_mul_pos_right (Nat.zero_lt_of_lt h)
      rw [Nat.mul_comm] at h
      exact ⟨Nat.mod_lt k hpos, (below_rows hpos).mpr h⟩
  simp only [belowColumn, pass, hin]

theorem dwt53RowTransposeInverse_eq (hn : 2 ≤ ncols) (heven : 2 ∣ ncols)
    (hsize : nrows * ncols ≤ 2 ^ 31) :
    dwt53RowTransposeInverse ⟨nrows * ncols, x⟩ ⟨nrows * ncols, z⟩ nrows ncols =
      some ⟨nrows * ncols, unpass nrows ncols x z⟩ := by
  have hends : ∃ b, dwt53RowTransposeInverse ⟨nrows * ncols, x⟩ ⟨nrows * ncols, z⟩ nrows ncols =
      some b ∧ b = ⟨nrows * ncols, belowRow ncols nrows
        (backward ncols fun k => x (target nrows ncols k)) z⟩ := by
    refine foldlM_range_ends nrows (fun i (b : Buffer Pixel) => b = ⟨nrows * ncols, belowRow ncols i
      (backward ncols fun k => x (target nrows ncols k)) z⟩) ?_ ?_
    · rw [belowRow_zero]
    · rintro i hi b rfl
      refine ⟨_, ?_, rfl⟩
      have hrow := fun c => @unliftRow_eq nrows ncols i
        (onRow ncols i (fun k => x (target nrows ncols k)) c) hn heven hi hsize
      rw [mergeRow_eq hn heven hi hsize, Option.bind_eq_bind, Option.bind_some]
      refine (hrow _).trans ?_
      congr 2
      rw [← onRow_belowRow]
      funext k
      by_cases hk : k / ncols = i
      · rw [onRow_self hk, onRow_self hk]
        exact backward_congr hn heven (fun j hj => onRow_self hj) hk
      · rw [onRow_of_ne hk, onRow_of_ne hk, onRow_of_ne hk]
  obtain ⟨b, hb, rfl⟩ := hends
  rw [hb]
  congr 2
  funext k
  simp only [belowRow, unpass, below_rows (show 0 < ncols by omega)]

end Passes

end EspDrivers.Dwt53
