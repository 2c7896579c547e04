import EspDrivers.ConvolutionalCode
import EspDrivers.Fills

/-! One call of the butterflies takes two steps of add, compare and select on the block of
memory, and writes to the metrics and the paths only. -/
namespace EspDrivers.Viterbi
open Buffers Checked Fills

section Lanes
variable {mem : Buffer UInt8}

theorem lanes_ends {f : Nat → Option UInt8} {g : Nat → UInt8} (h : ∀ j < 16, f j = some (g j)) :
    ∃ a, lanes f = some a ∧ ∀ j < 16, a j = g j := by
  have hcells : (List.range 16).mapM f = some ((List.range 16).map g) :=
    mapM_some fun j hj => h j (List.mem_range.mp hj)
  refine ⟨_, by rw [lanes, hcells]; rfl, ?_⟩
  intro j hj
  simp [List.getD_eq_getElem?_getD, List.getElem?_range hj]

theorem select16_eq (a b x y : Nat → UInt8) (j : Nat) :
    select16 (decide16 a b) x y j = if (b j).toNat < (a j).toNat then x j else y j := by
  have hones (z : UInt8) : (0xff : UInt8) &&& z = z := UInt8.neg_one_and
  have hnot : ~~~ (0xff : UInt8) = 0 := rfl
  have hiff : 0 < ((a j).toNat : Int) - (b j).toNat ↔ (b j).toNat < (a j).toNat := by omega
  simp only [select16, decide16, hiff]
  split
  · simp [hones, hnot]
  · simp

/-- The bit that a byte below 128 shifts out is 0, so the bytes of a word stay apart. -/
theorem shift_word (low high : UInt8) (hlow : low.toNat < 128) (hhigh : high.toNat < 128) :
    ((low.toUInt16 ||| (high.toUInt16 <<< 8)) <<< 1).toUInt8.toNat = 2 * low.toNat ∧
      (((low.toUInt16 ||| (high.toUInt16 <<< 8)) <<< 1) >>> 8).toUInt8.toNat =
        2 * high.toNat := by
  have hshift : (high.toUInt16 <<< 8).toNat = 2 ^ 8 * high.toNat := by
    simp only [UInt16.toNat_shiftLeft, UInt8.toNat_toUInt16, Nat.shiftLeft_eq]
    simp
    omega
  have hword : (low.toUInt16 ||| (high.toUInt16 <<< 8)).toNat =
      2 ^ 8 * high.toNat + low.toNat := by
    rw [UInt16.toNat_or, hshift, UInt8.toNat_toUInt16, Nat.or_comm,
      Nat.two_pow_add_eq_or_of_lt (by omega)]
  have hdouble : ((low.toUInt16 ||| (high.toUInt16 <<< 8)) <<< 1).toNat =
      2 * (2 ^ 8 * high.toNat + low.toNat) := by
    rw [UInt16.toNat_shiftLeft, hword, Nat.shiftLeft_eq]
    simp
    omega
  constructor
  · rw [UInt16.toNat_toUInt8, hdouble]
    omega
  · rw [UInt16.toNat_toUInt8, UInt16.toNat_shiftRight, hdouble, Nat.shiftRight_eq_div_pow]
    simp
    omega

theorem shiftLanes_ends (mem : Buffer UInt8) (path : Nat) (hsize : path + 16 ≤ mem.size)
    (hbyte : ∀ j < 16, (mem.cell (path + j)).toNat < 128) :
    ∃ a, shiftLanes mem path = some a ∧
      ∀ j < 16, (a j).toNat = 2 * (mem.cell (path + j)).toNat := by
  let word (k : Nat) : UInt16 := ((mem.cell (path + 2 * k)).toUInt16 |||
    ((mem.cell (path + (2 * k + 1))).toUInt16 <<< 8)) <<< 1
  have hcells : (List.range 8).mapM (fun k => do
      let low := (← mem.load (path + 2 * k)).toUInt16
      let simd := (low ||| ((← mem.load (path + (2 * k + 1))).toUInt16 <<< 8)) <<< 1
      some [simd.toUInt8, (simd >>> 8).toUInt8]) =
      some ((List.range 8).map fun k => [(word k).toUInt8, (word k >>> 8).toUInt8]) := by
    refine mapM_some ?_
    intro k hk
    have hk8 := List.mem_range.mp hk
    rw [Buffer.load_eq (by omega), Buffer.load_eq (by omega)]
    rfl
  refine ⟨_, by rw [shiftLanes, hcells]; rfl, ?_⟩
  intro j hj
  have hpair : ((List.range 8).map fun k =>
      [(word k).toUInt8, (word k >>> 8).toUInt8]).flatten.getD j 0 =
      if j % 2 = 0 then (word (j / 2)).toUInt8 else (word (j / 2) >>> 8).toUInt8 := by
    interval_cases j <;> rfl
  have hword := shift_word (mem.cell (path + 2 * (j / 2))) (mem.cell (path + (2 * (j / 2) + 1)))
    (hbyte _ (by omega)) (hbyte _ (by omega))
  rw [hpair]
  by_cases heven : j % 2 = 0
  · have hj2 : 2 * (j / 2) = j := by omega
    rw [if_pos heven, hword.1, hj2]
  · have hj2 : 2 * (j / 2) + 1 = j := by omega
    rw [if_neg heven, hword.2, hj2]

def turns (lane : Nat) (even odd : Nat → UInt8) (k : Nat) : UInt8 :=
  if k % 2 = 0 then even (lane + k / 2) else odd (lane + k / 2)

theorem interleave_eq {base lane : Nat} {even odd : Nat → UInt8} (h : base + 16 ≤ mem.size) :
    interleave mem base lane even odd = some (fill mem base 16 (turns lane even odd)) := by
  have hpairs : interleave mem base lane even odd = (List.range 8).foldlM (fun mem i =>
      (List.range 2).foldlM (fun mem j =>
        mem.store (base + (i * 2 + j)) (turns lane even odd (i * 2 + j))) mem) mem := by
    refine foldlM_congr ?_ mem
    intro k _ m
    have heven : turns lane even odd (k * 2) = even (lane + k) := by simp [turns]
    have hodd : turns lane even odd (k * 2 + 1) = odd (lane + k) := by
      have hdiv : (k * 2 + 1) / 2 = k := by omega
      simp [turns, hdiv]
    simp [List.range_succ, heven, hodd, Nat.mul_comm]
  rw [hpairs]
  exact (foldlM_range_nest (fun mem k => mem.store (base + k) (turns lane even odd k)) 8 2
    mem).trans (foldlM_fill 16 h fun _ _ _ _ _ => rfl)

theorem interleave_halves {base : Nat} {even odd : Nat → UInt8} :
    fill (fill mem base 16 (turns 0 even odd)) (base + 16) 16 (turns 8 even odd) =
      fill mem base 32 (turns 0 even odd) := by
  have hshift : turns 8 even odd = fun k => turns 0 even odd (16 + k) := by
    funext k
    have hdiv : (16 + k) / 2 = 8 + k / 2 := by omega
    have hmod : (16 + k) % 2 = k % 2 := by omega
    simp [turns, hdiv, hmod]
  rw [hshift]
  exact fill_fill mem base 16 16 (turns 0 even odd)

end Lanes

section Gains
variable {a b : UInt8}

def bitByte (bit : Bool) : UInt8 := if bit then 1 else 0

/-- The symbols received of those that the register `2 * c` gives. -/
def agreeing (a b : UInt8) (c : Nat) : Nat :=
  agree a (label polys0 (2 * c)) + agree b (label polys1 (2 * c))

def opposing (a b : UInt8) (c : Nat) : Nat :=
  agree a (!label polys0 (2 * c)) + agree b (!label polys1 (2 * c))

theorem agree_erased (bit : Bool) : agree 2 bit = 0 := by cases bit <;> rfl

theorem one_symbol (bit : Bool) (ha : a = 0 ∨ a = 1) :
    (bitByte bit ^^^ a).toNat = agree a (!bit) ∧ (1 - (bitByte bit ^^^ a)).toNat = agree a bit := by
  cases ha with
  | inl h => subst h; cases bit <;> decide
  | inr h => subst h; cases bit <;> decide

theorem two_symbols (bit bit' : Bool) (ha : a = 0 ∨ a = 1) (hb : b = 0 ∨ b = 1) :
    ((bitByte bit ^^^ a) + (bitByte bit' ^^^ b)).toNat = agree a (!bit) + agree b (!bit') ∧
      (2 - ((bitByte bit ^^^ a) + (bitByte bit' ^^^ b))).toNat = agree a bit + agree b bit' := by
  cases ha with
  | inl h =>
    subst h
    cases hb with
    | inl h => subst h; cases bit <;> cases bit' <;> decide
    | inr h => subst h; cases bit <;> cases bit' <;> decide
  | inr h =>
    subst h
    cases hb with
    | inl h => subst h; cases bit <;> cases bit' <;> decide
    | inr h => subst h; cases bit <;> cases bit' <;> decide

theorem bit_of_le (h : a.toNat ≤ 2) (hne : a ≠ 2) : a = 0 ∨ a = 1 := by
  have hval : a.toNat ≠ 2 := fun heq => hne (UInt8.toNat_inj.mp heq)
  obtain h0 | h1 : a.toNat = 0 ∨ a.toNat = 1 := by omega
  · exact Or.inl (UInt8.toNat_inj.mp h0)
  · exact Or.inr (UInt8.toNat_inj.mp h1)

/-- Both polynomials have ones at both ends: the other bit at one end turns both labels. -/
theorem label_ends : ∀ c < 32,
    (label polys0 (2 * c + 1) = !label polys0 (2 * c)) ∧
    (label polys1 (2 * c + 1) = !label polys1 (2 * c)) ∧
    (label polys0 (2 * c + 64) = !label polys0 (2 * c)) ∧
    (label polys1 (2 * c + 64) = !label polys1 (2 * c)) ∧
    (label polys0 (2 * c + 65) = label polys0 (2 * c)) ∧
    (label polys1 (2 * c + 65) = label polys1 (2 * c)) := by decide

theorem gainOf_lower (s : State) : gainOf a b (lower s) s =
    if s.val % 2 = 0 then agreeing a b (s.val / 2) else opposing a b (s.val / 2) := by
  obtain ⟨h0, h1, -⟩ := label_ends (s.val / 2) (by omega)
  rw [gainOf, register_lower, agreeing, opposing]
  split
  · have hs : s.val = 2 * (s.val / 2) := by omega
    rw [← hs]
  · have hs : s.val = 2 * (s.val / 2) + 1 := by omega
    rw [← h0, ← h1, ← hs]

theorem gainOf_upper (s : State) : gainOf a b (upper s) s =
    if s.val % 2 = 0 then opposing a b (s.val / 2) else agreeing a b (s.val / 2) := by
  obtain ⟨-, -, h0, h1, h0', h1'⟩ := label_ends (s.val / 2) (by omega)
  rw [gainOf, register_upper, agreeing, opposing]
  split
  · have hs : s.val + 64 = 2 * (s.val / 2) + 64 := by omega
    rw [← h0, ← h1, ← hs]
  · have hs : s.val + 64 = 2 * (s.val / 2) + 65 := by omega
    rw [← h0', ← h1', ← hs]

structure Block (mem : Buffer UInt8) : Prop where
  size : mem.size = 6 * 64
  branch0 : ∀ c < 32, mem.cell (256 + c) = bitByte (label polys0 (2 * c))
  branch1 : ∀ c < 32, mem.cell (288 + c) = bitByte (label polys1 (2 * c))

theorem Block.of_kept {mem mem' : Buffer UInt8} (h : Block mem) (hsize : mem'.size = mem.size)
    (hkept : ∀ k, 256 ≤ k → mem'.cell k = mem.cell k) : Block mem' := by
  constructor
  · exact hsize.trans h.size
  · intro c hc
    rw [hkept _ (Nat.le_add_right 256 c)]
    exact h.branch0 c hc
  · intro c hc
    rw [hkept _ (by omega)]
    exact h.branch1 c hc

theorem branchMetrics_ends {mem : Buffer UInt8} {firstSymbol i : Nat} {sym0v sym1v : Nat → UInt8}
    (hblock : Block mem) (hfirst : firstSymbol < 63) (ha : mem.cell (320 + firstSymbol) = a)
    (hb : mem.cell (320 + (firstSymbol + 1)) = b) (hsym0 : ∀ j < 16, sym0v j = a)
    (hsym1 : ∀ j < 16, sym1v j = b) (hrec : Received a b) (hi : i < 2) :
    ∃ metsvm metsv, branchMetrics mem firstSymbol sym0v sym1v i = some (metsvm, metsv) ∧
      ∀ j < 16, (metsvm j).toNat = opposing a b (i * 16 + j) ∧
        (metsv j).toNat = agreeing a b (i * 16 + j) := by
  have hsize : mem.size = 384 := hblock.size
  have hload0 (j : Nat) (hj : j < 16) : mem.load (256 + (i * 16 + j)) =
      some (bitByte (label polys0 (2 * (i * 16 + j)))) := by
    rw [Buffer.load_eq (by omega), hblock.branch0 _ (by omega)]
  have hload1 (j : Nat) (hj : j < 16) : mem.load (288 + (i * 16 + j)) =
      some (bitByte (label polys1 (2 * (i * 16 + j)))) := by
    rw [Buffer.load_eq (by omega), hblock.branch1 _ (by omega)]
  rw [branchMetrics, Buffer.load_eq (by omega), Buffer.load_eq (by omega), ha, hb]
  simp only [Option.bind_eq_bind, Option.bind_some]
  by_cases ha2 : a = 2
  · have hbit := bit_of_le hrec.2.1 fun hb2 => hrec.2.2 ⟨ha2, hb2⟩
    obtain ⟨metsvm, hm, hval⟩ := lanes_ends
      (f := fun j => (mem.load (288 + (i * 16 + j))).bind fun br => some (br ^^^ sym1v j))
      (fun j hj => by rw [hload1 j hj]; rfl)
    rw [if_pos ha2, hm]
    refine ⟨metsvm, _, rfl, ?_⟩
    intro j hj
    have hone := one_symbol (label polys1 (2 * (i * 16 + j))) hbit
    rw [hval j hj, hsym1 j hj, opposing, agreeing, hone.1, hone.2, ha2]
    simp [agree_erased]
  · have hbit := bit_of_le hrec.1 ha2
    rw [if_neg ha2]
    by_cases hb2 : b = 2
    · obtain ⟨metsvm, hm, hval⟩ := lanes_ends
        (f := fun j => (mem.load (256 + (i * 16 + j))).bind fun br => some (br ^^^ sym0v j))
        (fun j hj => by rw [hload0 j hj]; rfl)
      rw [if_pos hb2, hm]
      refine ⟨metsvm, _, rfl, ?_⟩
      intro j hj
      have hone := one_symbol (label polys0 (2 * (i * 16 + j))) hbit
      rw [hval j hj, hsym0 j hj, opposing, agreeing, hone.1, hone.2, hb2]
      simp [agree_erased]
    · have hbit' := bit_of_le hrec.2.1 hb2
      obtain ⟨metsvm, hm, hval⟩ := lanes_ends
        (f := fun j => (mem.load (256 + (i * 16 + j))).bind fun br =>
          (mem.load (288 + (i * 16 + j))).bind fun br' => some ((br ^^^ sym0v j) + (br' ^^^ sym1v j)))
        (fun j hj => by rw [hload0 j hj, hload1 j hj]; rfl)
      rw [if_neg hb2, hm]
      refine ⟨metsvm, _, rfl, ?_⟩
      intro j hj
      have htwo := two_symbols (label polys0 (2 * (i * 16 + j))) (label polys1 (2 * (i * 16 + j)))
        hbit hbit'
      rw [hval j hj, hsym0 j hj, hsym1 j hj, opposing, agreeing, htwo.1, htwo.2]
      exact ⟨rfl, rfl⟩

end Gains

section Rounds
variable {m path : State → Nat} {g : State → State → Nat}

def extend (m path : State → Nat) (g : State → State → Nat) (s : State) : Nat :=
  2 * path (select m g s) + oldest (select m g s)

theorem selected {s : State} {x y u v : UInt8} (hx : x.toNat = m (lower s) + g (lower s) s)
    (hy : y.toNat = m (upper s) + g (upper s) s) (hu : u.toNat = 2 * path (lower s))
    (hv : v.toNat = 2 * path (upper s) + 1) :
    (if y.toNat < x.toNat then x else y).toNat = addCompareSelect m g s ∧
      (if y.toNat < x.toNat then u else v).toNat = extend m path g s := by
  have hlow : oldest (lower s) = 0 := by
    simp only [oldest, lower]
    omega
  have hupp : oldest (upper s) = 1 := by
    simp only [oldest, upper]
    omega
  rw [addCompareSelect, extend, select, hx, hy]
  split
  · exact ⟨hx, by rw [hu, hlow, Nat.add_zero]⟩
  · exact ⟨hy, by rw [hv, hupp]⟩

def Apart (x y : Nat) : Prop := x + 64 ≤ y ∨ y + 64 ≤ x

/-- The four arrays are below the branch tables, and what is written is apart from what is
read. -/
structure Placed (p : Pointers) : Prop where
  metric0 : p.metric0 + 64 ≤ 256
  path0 : p.path0 + 64 ≤ 256
  metric1 : p.metric1 + 64 ≤ 256
  path1 : p.path1 + 64 ≤ 256
  metric1_metric0 : Apart p.metric1 p.metric0
  metric1_path0 : Apart p.metric1 p.path0
  path1_metric0 : Apart p.path1 p.metric0
  path1_path0 : Apart p.path1 p.path0
  metric1_path1 : Apart p.metric1 p.path1

/-- The metrics and paths that a group of symbols starts from. -/
structure Sources (p : Pointers) (m path : State → Nat) (mem : Buffer UInt8) : Prop where
  metric : ∀ s : State, (mem.cell (p.metric0 + s)).toNat = m s
  path : ∀ s : State, (mem.cell (p.path0 + s)).toNat = path s

theorem gains_le (a b : UInt8) (c : Nat) : agreeing a b c ≤ 2 ∧ opposing a b c ≤ 2 :=
  ⟨Nat.add_le_add (agree_le a _) (agree_le b _), Nat.add_le_add (agree_le a _) (agree_le b _)⟩

theorem Sources.sums {p : Pointers} {mem : Buffer UInt8} {r : Nat} {mets : Nat → UInt8}
    (hsrc : Sources p m path mem) (hroom : p.metric0 + 64 ≤ mem.size) (hm : ∀ s, m s ≤ 253)
    (hr : r < 4) (hmets : ∀ j < 16, (mets j).toNat ≤ 2) :
    ∃ f, lanes (fun j => (mem.load (p.metric0 + (r * 16 + j))).bind fun x =>
        some (x + mets j)) = some f ∧
      ∀ j < 16, ∀ s : State, s.val = r * 16 + j → (f j).toNat = m s + (mets j).toNat := by
  obtain ⟨f, hf, hval⟩ := lanes_ends
    (f := fun j => (mem.load (p.metric0 + (r * 16 + j))).bind fun x => some (x + mets j))
    (fun j hj => by rw [Buffer.load_eq (by omega)]; rfl)
  refine ⟨f, hf, ?_⟩
  intro j hj s hs
  have hcell := hsrc.metric s
  have hle := hm s
  have hmet := hmets j hj
  rw [hval j hj, ← hs, UInt8.toNat_add, hcell]
  omega

theorem Sources.shifts {p : Pointers} {mem : Buffer UInt8} {r : Nat} (hsrc : Sources p m path mem)
    (hroom : p.path0 + 64 ≤ mem.size) (hpath : ∀ s, path s < 128) (hr : r < 4) :
    ∃ f, shiftLanes mem (p.path0 + r * 16) = some f ∧
      ∀ j < 16, ∀ s : State, s.val = r * 16 + j → (f j).toNat = 2 * path s := by
  have hbyte (j : Nat) (s : State) (hs : s.val = r * 16 + j) :
      (mem.cell (p.path0 + r * 16 + j)).toNat = path s := by
    rw [← hsrc.path s, hs, Nat.add_assoc]
  obtain ⟨f, hf, hval⟩ := shiftLanes_ends mem (p.path0 + r * 16) (by omega) fun j hj => by
    rw [hbyte j ⟨r * 16 + j, by omega⟩ rfl]
    exact hpath _
  refine ⟨f, hf, ?_⟩
  intro j hj s hs
  rw [hval j hj, hbyte j s hs]

/-- The sums and the shifted paths of the round `i`, lane by lane. -/
structure Candidates (a b : UInt8) (m path : State → Nat) (i : Nat)
    (m0 m1 m2 m3 shift0 shift1 : Nat → UInt8) : Prop where
  sum0 : ∀ j < 16, ∀ s : State, s.val = i * 16 + j →
    (m0 j).toNat = m s + agreeing a b (i * 16 + j)
  sum1 : ∀ j < 16, ∀ s : State, s.val = (i + 2) * 16 + j →
    (m1 j).toNat = m s + opposing a b (i * 16 + j)
  sum2 : ∀ j < 16, ∀ s : State, s.val = i * 16 + j →
    (m2 j).toNat = m s + opposing a b (i * 16 + j)
  sum3 : ∀ j < 16, ∀ s : State, s.val = (i + 2) * 16 + j →
    (m3 j).toNat = m s + agreeing a b (i * 16 + j)
  path0 : ∀ j < 16, ∀ s : State, s.val = i * 16 + j → (shift0 j).toNat = 2 * path s
  path1 : ∀ j < 16, ∀ s : State, s.val = (i + 2) * 16 + j → (shift1 j).toNat = 2 * path s + 1

/-- The even states get the first of the two selections of a lane, the odd ones the second. -/
theorem Candidates.selected {m0 m1 m2 m3 shift0 shift1 : Nat → UInt8} {a b : UInt8} {i : Nat}
    (h : Candidates a b m path i m0 m1 m2 m3 shift0 shift1) {s : State} (hle : 32 * i ≤ s.val)
    (hlt : s.val < 32 * (i + 1)) :
    (turns 0 (select16 (decide16 m0 m1) m0 m1) (select16 (decide16 m2 m3) m2 m3)
        (s - 32 * i)).toNat = addCompareSelect m (gainOf a b) s ∧
      (turns 0 (select16 (decide16 m0 m1) shift0 shift1) (select16 (decide16 m2 m3) shift0 shift1)
        (s - 32 * i)).toNat = extend m path (gainOf a b) s := by
  have hj : (s.val - 32 * i) / 2 < 16 := by omega
  have hmod : (s.val - 32 * i) % 2 = s.val % 2 := by omega
  have hlow : (lower s).val = i * 16 + (s.val - 32 * i) / 2 := by
    simp only [lower]
    omega
  have hupp : (upper s).val = (i + 2) * 16 + (s.val - 32 * i) / 2 := by
    simp only [upper]
    omega
  have hhalf : s.val / 2 = i * 16 + (s.val - 32 * i) / 2 := by omega
  have hu := h.path0 _ hj (lower s) hlow
  have hv := h.path1 _ hj (upper s) hupp
  simp only [turns, hmod, Nat.zero_add]
  by_cases heven : s.val % 2 = 0
  · simp only [if_pos heven, select16_eq]
    refine Viterbi.selected ?_ ?_ hu hv
    · rw [h.sum0 _ hj (lower s) hlow, gainOf_lower, if_pos heven, hhalf]
    · rw [h.sum1 _ hj (upper s) hupp, gainOf_upper, if_pos heven, hhalf]
  · simp only [if_neg heven, select16_eq]
    refine Viterbi.selected ?_ ?_ hu hv
    · rw [h.sum2 _ hj (lower s) hlow, gainOf_lower, if_neg heven, hhalf]
    · rw [h.sum3 _ hj (upper s) hupp, gainOf_upper, if_neg heven, hhalf]

theorem butterflies_ends {p : Pointers} {mem : Buffer UInt8} {firstSymbol i : Nat} {a b : UInt8}
    {sym0v sym1v : Nat → UInt8} (hp : Placed p) (hblock : Block mem) (hsrc : Sources p m path mem)
    (hm : ∀ s, m s ≤ 253) (hpath : ∀ s, path s < 128) (hfirst : firstSymbol < 63)
    (ha : mem.cell (320 + firstSymbol) = a) (hb : mem.cell (320 + (firstSymbol + 1)) = b)
    (hsym0 : ∀ j < 16, sym0v j = a) (hsym1 : ∀ j < 16, sym1v j = b) (hrec : Received a b)
    (hi : i < 2) :
    ∃ newM newP, butterflies p firstSymbol sym0v sym1v mem i =
        some (fill (fill mem (p.metric1 + 32 * i) 32 newM) (p.path1 + 32 * i) 32 newP) ∧
      ∀ s : State, 32 * i ≤ s.val → s.val < 32 * (i + 1) →
        (newM (s - 32 * i)).toNat = addCompareSelect m (gainOf a b) s ∧
        (newP (s - 32 * i)).toNat = extend m path (gainOf a b) s := by
  have hsize : mem.size = 384 := hblock.size
  have h0 := hp.metric0
  have h0' := hp.path0
  have h1 := hp.metric1
  have h1' := hp.path1
  obtain ⟨metsvm, metsv, hmets, hgain⟩ :=
    branchMetrics_ends hblock hfirst ha hb hsym0 hsym1 hrec hi
  have hA : ∀ j < 16, (metsv j).toNat ≤ 2 := fun j hj => (hgain j hj).2 ▸ (gains_le a b _).1
  have hO : ∀ j < 16, (metsvm j).toNat ≤ 2 := fun j hj => (hgain j hj).1 ▸ (gains_le a b _).2
  have hroom : p.metric0 + 64 ≤ mem.size := by omega
  obtain ⟨m0, hm0, hval0⟩ := hsrc.sums (r := i) hroom hm (by omega) hA
  obtain ⟨m1, hm1, hval1⟩ := hsrc.sums (r := i + 2) hroom hm (by omega) hO
  obtain ⟨m2, hm2, hval2⟩ := hsrc.sums (r := i) hroom hm (by omega) hO
  obtain ⟨m3, hm3, hval3⟩ := hsrc.sums (r := i + 2) hroom hm (by omega) hA
  obtain ⟨shift0, hs0, hshift0⟩ := hsrc.shifts (r := i) (by omega) hpath (by omega)
  obtain ⟨shift1, hs1, hshift1⟩ := hsrc.shifts (r := i + 2) (by omega) hpath (by omega)
  have hone : (1 : UInt8).toNat = 1 := rfl
  have hcandidates : Candidates a b m path i m0 m1 m2 m3 shift0 fun j => shift1 j + 1 := by
    refine ⟨?_, ?_, ?_, ?_, hshift0, ?_⟩
    · exact fun j hj s hs => (hgain j hj).2 ▸ hval0 j hj s hs
    · exact fun j hj s hs => (hgain j hj).1 ▸ hval1 j hj s hs
    · exact fun j hj s hs => (hgain j hj).1 ▸ hval2 j hj s hs
    · exact fun j hj s hs => (hgain j hj).2 ▸ hval3 j hj s hs
    · intro j hj s hs
      have hlt := hpath s
      rw [UInt8.toNat_add, hshift1 j hj s hs, hone]
      omega
  have hbase (at1 : Nat) : at1 + 2 * i * 16 = at1 + 32 * i ∧
      at1 + (2 * i + 1) * 16 = at1 + 32 * i + 16 := by omega
  refine ⟨_, _, ?_, fun s hle hlt => hcandidates.selected hle hlt⟩
  simp only [butterflies, hmets, Option.bind_eq_bind, Option.bind_some, hm0, hm1, hm2, hm3, hs0,
    hs1, (hbase _).1, (hbase _).2]
  rw [interleave_eq (by omega), Option.bind_some, interleave_eq (by simp; omega),
    Option.bind_some, interleave_eq (by simp; omega), Option.bind_some,
    interleave_eq (by simp; omega), interleave_halves, interleave_halves]

structure Stepped (p : Pointers) (a b : UInt8) (m path : State → Nat) (n : Nat)
    (mem mem' : Buffer UInt8) : Prop where
  size : mem'.size = mem.size
  metric : ∀ s : State, s.val < n →
    (mem'.cell (p.metric1 + s)).toNat = addCompareSelect m (gainOf a b) s
  path : ∀ s : State, s.val < n →
    (mem'.cell (p.path1 + s)).toNat = extend m path (gainOf a b) s
  kept : ∀ k, (k < p.metric1 ∨ p.metric1 + n ≤ k) → (k < p.path1 ∨ p.path1 + n ≤ k) →
    mem'.cell k = mem.cell k

theorem symbolGroup_ends {p : Pointers} {mem : Buffer UInt8} (firstSymbol : Nat) {a b : UInt8}
    (hp : Placed p) (hblock : Block mem) (hsrc : Sources p m path mem)
    (hm : ∀ s, m s ≤ 253) (hpath : ∀ s, path s < 128) (hfirst : firstSymbol < 63)
    (ha : mem.cell (320 + firstSymbol) = a) (hb : mem.cell (320 + (firstSymbol + 1)) = b)
    (hrec : Received a b) :
    ∃ mem', symbolGroup p firstSymbol mem = some mem' ∧ Stepped p a b m path 64 mem mem' := by
  have hsize : mem.size = 384 := hblock.size
  have h1 := hp.metric1
  have h1' := hp.path1
  obtain ⟨sym0v, hs0, hsym0⟩ := lanes_ends (f := fun _ => mem.load (320 + firstSymbol))
    (g := fun _ => a) fun j _ => by rw [Buffer.load_eq (by omega), ha]
  obtain ⟨sym1v, hs1, hsym1⟩ := lanes_ends (f := fun _ => mem.load (320 + (firstSymbol + 1)))
    (g := fun _ => b) fun j _ => by rw [Buffer.load_eq (by omega), hb]
  have hround (i : Nat) (hi : i < 2) (mem' : Buffer UInt8)
      (h : Stepped p a b m path (32 * i) mem mem') :
      ∃ mem'', butterflies p firstSymbol sym0v sym1v mem' i = some mem'' ∧
        Stepped p a b m path (32 * (i + 1)) mem mem'' := by
    have a1 := hp.metric1_metric0
    have a2 := hp.metric1_path0
    have a3 := hp.path1_metric0
    have a4 := hp.path1_path0
    have a5 := hp.metric1_path1
    simp only [Apart] at a1 a2 a3 a4 a5
    have hsrc' : Sources p m path mem' := by
      constructor
      · intro s
        rw [h.kept _ (by omega) (by omega)]
        exact hsrc.metric s
      · intro s
        rw [h.kept _ (by omega) (by omega)]
        exact hsrc.path s
    have hblock' : Block mem' := hblock.of_kept h.size fun k hk =>
      h.kept k (Or.inr (by omega)) (Or.inr (by omega))
    have ha' : mem'.cell (320 + firstSymbol) = a := by rw [h.kept _ (by omega) (by omega), ha]
    have hb' : mem'.cell (320 + (firstSymbol + 1)) = b := by
      rw [h.kept _ (by omega) (by omega), hb]
    obtain ⟨newM, newP, hrun, hnew⟩ := butterflies_ends hp hblock' hsrc' hm hpath hfirst ha' hb'
      hsym0 hsym1 hrec hi
    have hM (s : State) (hs : ¬s.val < 32 * i) :
        p.metric1 + s.val = p.metric1 + 32 * i + (s.val - 32 * i) := by omega
    have hP (s : State) (hs : ¬s.val < 32 * i) :
        p.path1 + s.val = p.path1 + 32 * i + (s.val - 32 * i) := by omega
    refine ⟨_, hrun, h.size, ?_, ?_, ?_⟩
    · intro s hs
      by_cases hold : s.val < 32 * i
      · rw [fill_outside (by omega), fill_outside (by omega)]
        exact h.metric s hold
      · rw [fill_outside (by omega), hM s hold, fill_inside (by omega)]
        exact (hnew s (by omega) (by omega)).1
    · intro s hs
      by_cases hold : s.val < 32 * i
      · rw [fill_outside (by omega), fill_outside (by omega)]
        exact h.path s hold
      · rw [hP s hold, fill_inside (by omega)]
        exact (hnew s (by omega) (by omega)).2
    · intro k hk hk'
      rw [fill_outside (by omega), fill_outside (by omega)]
      exact h.kept k (by omega) (by omega)
  have hstart : Stepped p a b m path (32 * 0) mem mem :=
    ⟨rfl, fun s hs => absurd hs (by omega), fun s hs => absurd hs (by omega), fun _ _ _ => rfl⟩
  obtain ⟨mem', hrun, hdone⟩ := foldlM_range_ends 2
    (fun i => Stepped p a b m path (32 * i) mem) hstart hround
  refine ⟨mem', ?_, hdone⟩
  simp only [symbolGroup, hs0, hs1, Option.bind_eq_bind, Option.bind_some]
  exact hrun

theorem addCompareSelect_le {n : Nat} (hm : ∀ s, m s ≤ n) (a b : UInt8) (s : State) :
    addCompareSelect m (gainOf a b) s ≤ n + 2 :=
  Nat.add_le_add (hm _) (gainOf_le a b _ _)

theorem extend_lt {n : Nat} (hpath : ∀ s, path s < n) (m : State → Nat)
    (g : State → State → Nat) (s : State) : extend m path g s < 2 * n := by
  have hlt := hpath (select m g s)
  have hbit : oldest (select m g s) < 2 := by
    simp only [oldest]
    omega
  simp only [extend]
  omega

structure Called (a b c d : UInt8) (m path : State → Nat) (mem mem' : Buffer UInt8) : Prop where
  size : mem'.size = mem.size
  metric : ∀ s : State, (mem'.cell s).toNat =
    addCompareSelect (addCompareSelect m (gainOf a b)) (gainOf c d) s
  path : ∀ s : State, (mem'.cell (128 + s)).toNat =
    extend (addCompareSelect m (gainOf a b)) (extend m path (gainOf a b)) (gainOf c d) s
  kept : ∀ k, 256 ≤ k → mem'.cell k = mem.cell k

theorem viterbiButterfly2Generic_ends {mem : Buffer UInt8} {a b c d : UInt8} (hblock : Block mem)
    (hmetric : ∀ s : State, (mem.cell s).toNat = m s)
    (hpaths : ∀ s : State, (mem.cell (128 + s)).toNat = path s)
    (hm : ∀ s, m s ≤ 251) (hpath : ∀ s, path s < 64)
    (ha : mem.cell 320 = a) (hb : mem.cell 321 = b) (hc : mem.cell 322 = c)
    (hd : mem.cell 323 = d) (hab : Received a b) (hcd : Received c d) :
    ∃ mem', viterbiButterfly2Generic mem = some mem' ∧ Called a b c d m path mem mem' := by
  have hfirst : Placed ⟨0, 128, 64, 192⟩ := by
    constructor <;> simp [Apart]
  have hsecond : Placed ⟨64, 192, 0, 128⟩ := by
    constructor <;> simp [Apart]
  have hsrc : Sources ⟨0, 128, 64, 192⟩ m path mem :=
    ⟨fun s => by rw [Nat.zero_add]; exact hmetric s, hpaths⟩
  obtain ⟨mem1, hrun1, hstep1⟩ := symbolGroup_ends 0 hfirst hblock hsrc
    (fun s => (hm s).trans (by omega)) (fun s => (hpath s).trans (by omega)) (by omega) ha hb hab
  have hkept (k : Nat) (hk : 256 ≤ k) : mem1.cell k = mem.cell k :=
    hstep1.kept k (Or.inr (by simp only; omega)) (Or.inr (by simp only; omega))
  have hblock1 : Block mem1 := hblock.of_kept hstep1.size hkept
  obtain ⟨mem2, hrun2, hstep2⟩ := symbolGroup_ends 2
    hsecond hblock1 ⟨fun s => hstep1.metric s s.isLt, fun s => hstep1.path s s.isLt⟩
    (fun s => addCompareSelect_le hm a b s) (fun s => extend_lt hpath m _ s) (by omega)
    ((hkept _ (by omega)).trans hc) ((hkept _ (by omega)).trans hd) hcd
  refine ⟨mem2, ?_, ⟨hstep2.size.trans hstep1.size, ?_, fun s => hstep2.path s s.isLt, ?_⟩⟩
  · simp only [viterbiButterfly2Generic, hrun1, Option.bind_eq_bind, Option.bind_some]
    exact hrun2
  · intro s
    have hs := hstep2.metric s s.isLt
    rwa [Nat.zero_add] at hs
  · intro k hk
    rw [hstep2.kept k (Or.inr (by simp only; omega)) (Or.inr (by simp only; omega)), hkept k hk]

end Rounds

end EspDrivers.Viterbi
