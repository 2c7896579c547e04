import EspDrivers.Strides

/-! Files with little-endian elements on SPARC: lefread and lefwrite turn the bytes of every element
around. -/
namespace EspDrivers.LittleEndian
open Buffers Strides

section Model

abbrev Byte := BitVec 8

/-- `for (i = 0; i < n; i++)` with an int `i`, which cannot count to a larger `n`. -/
def forInt {σ : Type} (n : Nat) (body : σ → Nat → Option σ) (s : σ) : Option σ :=
  if n < 2 ^ 31 then (List.range n).foldlM body s else none

/-- What a buffer holds when the bytes of a stream have been read to its front. -/
def filled (ptr : Buffer Byte) (bytes : List Byte) (len : Nat) : Buffer Byte :=
  ⟨ptr.size, fun k => if k < len then bytes.getD k 0 else ptr.cell k⟩

/-- The stream is the bytes that it still has. The result counts complete elements. -/
def fread (ptr : Buffer Byte) (size nmemb : Nat) (stream : List Byte) :
    Option (Nat × Buffer Byte × List Byte) :=
  let len := min (size * nmemb) stream.length
  if len ≤ ptr.size then some (len / size, filled ptr stream len, stream.drop len) else none

/-- A stream that takes `accepts` elements. -/
def fwrite (accepts : Nat) (ptr : Buffer Byte) (size nmemb : Nat) (stream : List Byte) :
    Option (Nat × List Byte) :=
  let n := min nmemb accepts
  if size * n ≤ ptr.size then some (n, stream ++ (List.range (size * n)).map ptr.cell) else none

def element (size : Nat) (p : Buffer Byte) (i : Nat) : Option (Buffer Byte) :=
  if size * i + size ≤ p.size then some ⟨size, fun k => p.cell (size * i + k)⟩ else none

def reverseElem (size : Nat) (p : Buffer Byte) (i : Nat) : Option (Buffer Byte) := do
  let buf ← element size p i
  forInt size (fun p j => do p.store (size * i + j) (← buf.load (size - j - 1))) p

/-- `alloc` is whether malloc has memory; `ptr` is not NULL. -/
def lefread (alloc : Bool) (ptr : Buffer Byte) (size nmemb : Nat) (stream : List Byte) :
    Option (Nat × Buffer Byte × List Byte) :=
  if size = 1 then fread ptr size nmemb stream
  else do
    let (n, p, stream) ← fread ptr size nmemb stream
    if n = 0 then return (n, p, stream)
    else if !alloc then return (0, p, stream)
    else
      -- the loop goes to nmemb and not to n
      let p ← forInt nmemb (reverseElem size) p
      return (n, p, stream)

def writeElem (size : Nat) (ptr buf : Buffer Byte) (i : Nat) : Option (Buffer Byte) :=
  forInt size (fun buf j => do
    buf.store (size * i + j) (← ptr.load (size * (i + 1) - j - 1))) buf

/-- The cells of the new buffer begin with any content. -/
def lefwrite (alloc : Bool) (cells : Nat → Byte) (accepts : Nat) (ptr : Buffer Byte)
    (size nmemb : Nat) (stream : List Byte) : Option (Nat × List Byte) :=
  if size = 1 then fwrite accepts ptr size nmemb stream
  else if !alloc then some (0, stream)
  else do
    let buf ← forInt nmemb (writeElem size ptr) ⟨nmemb * size, cells⟩
    fwrite accepts buf size nmemb stream

def RoundTrip (allocWrite allocRead : Bool) (cells : Nat → Byte) (accepts : Nat)
    (ptr dst : Buffer Byte) (size nmemb : Nat) : Prop :=
  ∃ file, lefwrite allocWrite cells accepts ptr size nmemb [] = some (nmemb, file) ∧
  ∃ p rest, lefread allocRead dst size nmemb file = some (nmemb, p, rest) ∧
    ∀ k < size * nmemb, p.cell k = ptr.cell k

def complete (size : Nat) (stream : List Byte) : Nat := stream.length / size

/-- The elements of the stream come in with their bytes turned around, and the other elements of the
buffer are as they were. -/
def ReadsElements (alloc : Bool) (ptr : Buffer Byte) (size nmemb : Nat) (stream : List Byte) :
    Prop :=
  ∃ p rest, lefread alloc ptr size nmemb stream = some (min nmemb (complete size stream), p, rest) ∧
    (∀ i < min nmemb (complete size stream), ∀ j < size,
      stream[size * i + (size - 1 - j)]? = some (p.cell (size * i + j))) ∧
    ∀ i, complete size stream ≤ i → i < nmemb → ∀ j < size,
      p.cell (size * i + j) = ptr.cell (size * i + j)

def arrived (ptr : Buffer Byte) (stream : List Byte) (k : Nat) : Byte :=
  stream.getD k (ptr.cell k)

/-- The bytes of the stream are what the buffer begins with. -/
def Repeats (ptr : Buffer Byte) (stream : List Byte) : Prop :=
  ∀ k < stream.length, arrived ptr stream k = ptr.cell k

/-- Behind the complete elements of the stream, the elements read the same turned around; the
first of them begins with the bytes that the stream has left. -/
def Palindromes (ptr : Buffer Byte) (size nmemb : Nat) (stream : List Byte) : Prop :=
  ∀ i, complete size stream ≤ i → i < nmemb → ∀ j < size,
    arrived ptr stream (size * i + (size - 1 - j)) = ptr.cell (size * i + j)

end Model

section Reading
variable {size nmemb n i : Nat} {p q ptr dst : Buffer Byte} {stream : List Byte}

structure Reversed (size n : Nat) (p q : Buffer Byte) : Prop where
  room : q.size = p.size
  elements : ∀ i < n, ∀ j < size, q.cell (size * i + j) = p.cell (size * i + (size - 1 - j))
  kept : ∀ k, size * n ≤ k → q.cell k = p.cell k

theorem forInt_eq {σ : Type} {body : σ → Nat → Option σ} (h : n < 2 ^ 31) (s : σ) :
    forInt n body s = (List.range n).foldlM body s := if_pos h

theorem forInt_some {σ : Type} {body : σ → Nat → Option σ} {s t : σ}
    (h : forInt n body s = some t) : n < 2 ^ 31 ∧ (List.range n).foldlM body s = some t := by
  rw [forInt] at h
  split at h
  · next hn => exact ⟨hn, h⟩
  · cases h

theorem forInt_round {σ : Type} {body : σ → Nat → Option σ} {s t : σ}
    (h : forInt n body s = some t) (hn : 0 < n) : n < 2 ^ 31 ∧ ∃ u v, body u 0 = some v := by
  obtain ⟨hint, hloop⟩ := forInt_some h
  obtain ⟨-, hrounds⟩ :=
    foldlM_rounds (I := fun _ => True) (fun _ _ _ _ _ => trivial) trivial hloop
  obtain ⟨u, v, -, hround⟩ := hrounds 0 (List.mem_range.mpr hn)
  exact ⟨hint, u, v, hround⟩

theorem reverseElem_ends (hsize : size < 2 ^ 31) (hroom : size * i + size ≤ p.size) :
    ∃ q, reverseElem size p i = some q ∧
      Scattered (List.range size) (size * i + ·)
        (fun j => p.cell (size * i + (size - 1 - j))) p q := by
  rw [reverseElem, element, if_pos hroom, Option.bind_eq_bind, Option.bind_some, forInt_eq hsize]
  refine foldlM_scatters ?_ ?_ ?_
  · intro j _ l _ heq
    exact Nat.add_left_cancel heq
  · intro j hj
    have hlt := List.mem_range.mp hj
    omega
  · intro j hj
    have hlt := List.mem_range.mp hj
    have hplace : size - j - 1 = size - 1 - j := by omega
    rw [hplace]
    exact Buffer.load_eq (by omega : size - 1 - j < size)

theorem Reversed.step (h : Reversed size i p q) (hsize : size < 2 ^ 31)
    (hroom : size * (i + 1) ≤ p.size) :
    ∃ q', reverseElem size q i = some q' ∧ Reversed size (i + 1) p q' := by
  rw [Nat.mul_succ] at hroom
  obtain ⟨q', hq', hscattered⟩ := reverseElem_ends (p := q) (i := i) hsize (h.room ▸ hroom)
  refine ⟨q', hq', hscattered.size.trans h.room, ?_, ?_⟩
  · intro l hl j hj
    by_cases hli : l = i
    · subst hli
      rw [hscattered.written j (List.mem_range.mpr hj)]
      exact h.kept _ (Nat.le_add_right _ _)
    · rw [hscattered.kept]
      · exact h.elements l (by omega) j hj
      · intro j' hj' heq
        exact hli (place_inj hj (List.mem_range.mp hj') heq).1
  · intro k hk
    rw [Nat.mul_succ] at hk
    rw [hscattered.kept]
    · exact h.kept k (by omega)
    · intro j hj heq
      have hlt := List.mem_range.mp hj
      omega

theorem reversed_ends (hn : n < 2 ^ 31) (hsize : size < 2 ^ 31) (hroom : size * n ≤ p.size) :
    ∃ q, forInt n (reverseElem size) p = some q ∧ Reversed size n p q := by
  rw [forInt_eq hn]
  refine foldlM_range_ends n (fun i q => Reversed size i p q) ?_ ?_
  · refine ⟨rfl, ?_, fun _ _ => rfl⟩
    intro i hi
    exact absurd hi (Nat.not_lt_zero i)
  · intro i hi q hq
    exact hq.step hsize ((Nat.mul_le_mul_left size hi).trans hroom)

def received (ptr : Buffer Byte) (size nmemb : Nat) (stream : List Byte) : Buffer Byte :=
  filled ptr stream (min (size * nmemb) stream.length)

theorem fread_eq (hsize : 1 ≤ size) (hptr : ptr.size = size * nmemb) :
    fread ptr size nmemb stream = some (min nmemb (complete size stream),
      received ptr size nmemb stream, stream.drop (min (size * nmemb) stream.length)) := by
  have hcount : min (size * nmemb) stream.length / size = min nmemb (complete size stream) := by
    rw [complete]
    cases le_total (size * nmemb) stream.length with
    | inl hle =>
      have hfew : nmemb ≤ stream.length / size :=
        (Nat.le_div_iff_mul_le hsize).mpr (Nat.mul_comm size nmemb ▸ hle)
      rw [min_eq_left hle, min_eq_left hfew, Nat.mul_div_cancel_left _ hsize]
    | inr hle =>
      have hfew : stream.length / size ≤ nmemb := Nat.div_le_of_le_mul hle
      rw [min_eq_right hle, min_eq_right hfew]
  rw [fread, if_pos (hptr ▸ min_le_left _ _), hcount]
  rfl

theorem received_cell {k : Nat} (hk : k < size * nmemb) :
    (received ptr size nmemb stream).cell k = arrived ptr stream k := by
  change (if k < min (size * nmemb) stream.length then stream.getD k 0 else ptr.cell k) = _
  rw [arrived]
  by_cases hlt : k < stream.length
  · rw [if_pos (lt_min hk hlt), List.getD_eq_getElem _ _ hlt, List.getD_eq_getElem _ _ hlt]
  · rw [if_neg (fun h => hlt (h.trans_le (min_le_right _ _))),
      List.getD_eq_default _ _ (Nat.not_lt.mp hlt)]

theorem arrived_complete {i j : Nat} (hi : i < complete size stream)
    (hj : j < size) : stream[size * i + j]? = some (arrived ptr stream (size * i + j)) := by
  have hlt : size * i + j < stream.length :=
    (place_lt hi hj).trans_le (Nat.mul_div_le stream.length size)
  rw [arrived, List.getD_eq_getElem _ _ hlt, List.getElem?_eq_getElem hlt]

theorem arrived_behind {k : Nat} (hk : stream.length ≤ k) : arrived ptr stream k = ptr.cell k := by
  rw [arrived, List.getD_eq_default _ _ hk]

/-- The cases of lefread: it takes the elements as they are, finds none, has no memory, or turns
around as many elements as were asked for. -/
theorem lefread_reversed (hsize : 1 ≤ size) (hptr : ptr.size = size * nmemb) (hone : size ≠ 1)
    (hsome : min nmemb (complete size stream) ≠ 0) (hn : nmemb < 2 ^ 31) (hint : size < 2 ^ 31) :
    ∃ p rest, lefread true ptr size nmemb stream =
        some (min nmemb (complete size stream), p, rest) ∧
      Reversed size nmemb (received ptr size nmemb stream) p := by
  obtain ⟨p, hp, hreversed⟩ := reversed_ends (p := received ptr size nmemb stream) hn hint hptr.ge
  refine ⟨p, stream.drop (min (size * nmemb) stream.length), ?_, hreversed⟩
  rw [lefread, if_neg hone, fread_eq hsize hptr, Option.bind_eq_bind, Option.bind_some]
  simp only [if_neg hsome, hp]
  rfl

theorem lefread_some (hsize : 1 ≤ size) (hptr : ptr.size = size * nmemb) (hone : size ≠ 1)
    (hsome : min nmemb (complete size stream) ≠ 0) {alloc : Bool} {p : Buffer Byte}
    {rest : List Byte}
    (h : lefread alloc ptr size nmemb stream = some (min nmemb (complete size stream), p, rest)) :
    alloc = true ∧ nmemb < 2 ^ 31 ∧ size < 2 ^ 31 := by
  rw [lefread, if_neg hone, fread_eq hsize hptr, Option.bind_eq_bind, Option.bind_some] at h
  simp only [if_neg hsome] at h
  cases alloc with
  | false =>
    have hzero := (Prod.mk.inj (Option.some.inj h)).1
    exact absurd hzero.symm hsome
  | true =>
    obtain ⟨q, hq, -⟩ := Option.bind_eq_some_iff.mp h
    obtain ⟨hn, u, v, hround⟩ := forInt_round hq (by omega)
    obtain ⟨buf, -, hturn⟩ := Option.bind_eq_some_iff.mp hround
    exact ⟨rfl, hn, (forInt_some hturn).1⟩

theorem lefread_plain {alloc : Bool} (hsize : 1 ≤ size) (hptr : ptr.size = size * nmemb)
    (hplain : size = 1 ∨ min nmemb (complete size stream) = 0) :
    lefread alloc ptr size nmemb stream = some (min nmemb (complete size stream),
      received ptr size nmemb stream, stream.drop (min (size * nmemb) stream.length)) := by
  rw [lefread, fread_eq hsize hptr]
  split
  · rfl
  · next hone =>
    rw [Option.bind_eq_bind, Option.bind_some]
    exact if_pos (hplain.resolve_left hone)

theorem readsElements_bytes {alloc : Bool} (hptr : ptr.size = nmemb) :
    ReadsElements alloc ptr 1 nmemb stream := by
  have hroom : ptr.size = 1 * nmemb := by rw [hptr, Nat.one_mul]
  have hlength : complete 1 stream = stream.length := Nat.div_one _
  refine ⟨_, _, lefread_plain le_rfl hroom (Or.inl rfl), ?_, ?_⟩
  · intro i hi j hj
    obtain ⟨hlt, hcount⟩ := lt_min_iff.mp hi
    have hmirror : 1 - 1 - j = j := by omega
    rw [hmirror, received_cell (place_lt hlt hj)]
    exact arrived_complete hcount hj
  · intro i hm hi j hj
    rw [received_cell (place_lt hi hj)]
    exact arrived_behind (by omega)

theorem readsElements_none {alloc : Bool} (hsize : 1 ≤ size) (hptr : ptr.size = size * nmemb)
    (hnone : complete size stream = 0) (hsome : nmemb ≠ 0) :
    ReadsElements alloc ptr size nmemb stream ↔ Repeats ptr stream := by
  have hshort : stream.length < size := by
    rw [complete, Nat.div_eq_zero_iff] at hnone
    omega
  have hplain : lefread alloc ptr size nmemb stream = some (min nmemb (complete size stream),
      received ptr size nmemb stream, stream.drop (min (size * nmemb) stream.length)) :=
    lefread_plain hsize hptr (Or.inr (by rw [hnone, Nat.min_zero]))
  have hroom : size ≤ size * nmemb := Nat.le_mul_of_pos_right size (Nat.pos_of_ne_zero hsome)
  constructor
  · intro hreads k hk
    obtain ⟨p, rest, hp, -, hkept⟩ := hreads
    obtain ⟨-, hbuffers⟩ := Prod.mk.inj (Option.some.inj (hp.symm.trans hplain))
    obtain ⟨rfl, -⟩ := Prod.mk.inj hbuffers
    have hcell := hkept 0 hnone.le (Nat.pos_of_ne_zero hsome) k (by omega)
    rw [Nat.mul_zero, Nat.zero_add, received_cell (by omega)] at hcell
    exact hcell
  · intro hrepeats
    refine ⟨_, _, hplain, ?_, ?_⟩
    · intro i hi
      rw [hnone, Nat.min_zero] at hi
      exact absurd hi (Nat.not_lt_zero i)
    · intro i _ hi j hj
      rw [received_cell (place_lt hi hj)]
      by_cases hlt : size * i + j < stream.length
      · exact hrepeats _ hlt
      · exact arrived_behind (Nat.not_lt.mp hlt)

theorem readsElements_some {alloc : Bool} (hsize : 1 ≤ size) (hptr : ptr.size = size * nmemb)
    (hone : size ≠ 1) (hsome : min nmemb (complete size stream) ≠ 0) :
    ReadsElements alloc ptr size nmemb stream ↔
      (alloc = true ∧ nmemb < 2 ^ 31 ∧ size < 2 ^ 31) ∧ Palindromes ptr size nmemb stream := by
  constructor
  · intro hreads
    obtain ⟨p, rest, hp, -, hkept⟩ := hreads
    obtain ⟨rfl, hn, hint⟩ := lefread_some hsize hptr hone hsome hp
    refine ⟨⟨rfl, hn, hint⟩, ?_⟩
    obtain ⟨q, rest', hq, hreversed⟩ := lefread_reversed hsize hptr hone hsome hn hint
    obtain ⟨-, hbuffers⟩ := Prod.mk.inj (Option.some.inj (hp.symm.trans hq))
    obtain ⟨rfl, -⟩ := Prod.mk.inj hbuffers
    intro i hm hi j hj
    rw [← hkept i hm hi j hj, hreversed.elements i hi j hj,
      received_cell (place_lt hi (by omega))]
  · intro hcond
    obtain ⟨⟨rfl, hn, hint⟩, hpalindromes⟩ := hcond
    obtain ⟨q, rest, hq, hreversed⟩ := lefread_reversed hsize hptr hone hsome hn hint
    refine ⟨q, rest, hq, ?_, ?_⟩
    · intro i hi j hj
      obtain ⟨hlt, hcount⟩ := lt_min_iff.mp hi
      rw [hreversed.elements i hlt j hj, received_cell (place_lt hlt (by omega))]
      exact arrived_complete hcount (by omega)
    · intro i hm hi j hj
      rw [hreversed.elements i hi j hj, received_cell (place_lt hi (by omega))]
      exact hpalindromes i hm hi j hj

/-- The read of elements is as told exactly when nothing is stored or turned around that was not
read as an element, or when this makes no difference. -/
theorem readsElements_iff {alloc : Bool} (hsize : 1 ≤ size) (hptr : ptr.size = size * nmemb) :
    ReadsElements alloc ptr size nmemb stream ↔
      size = 1 ∨ nmemb = 0 ∨ (complete size stream = 0 ∧ Repeats ptr stream) ∨
        (complete size stream ≠ 0 ∧ (alloc = true ∧ nmemb < 2 ^ 31 ∧ size < 2 ^ 31) ∧
          Palindromes ptr size nmemb stream) := by
  by_cases hone : size = 1
  · subst hone
    rw [Nat.one_mul] at hptr
    exact iff_of_true (readsElements_bytes hptr) (Or.inl rfl)
  by_cases hempty : nmemb = 0
  · subst hempty
    refine iff_of_true ⟨_, _, lefread_plain hsize hptr (Or.inr (Nat.zero_min _)), ?_, ?_⟩
      (Or.inr (Or.inl rfl))
    · intro i hi
      rw [Nat.zero_min] at hi
      exact absurd hi (Nat.not_lt_zero i)
    · exact fun i _ hi => absurd hi (Nat.not_lt_zero i)
  rw [or_iff_right hone, or_iff_right hempty]
  by_cases hnone : complete size stream = 0
  · rw [readsElements_none hsize hptr hnone hempty]
    constructor
    · exact fun hrepeats => Or.inl ⟨hnone, hrepeats⟩
    · intro hcond
      cases hcond with
      | inl hrepeats => exact hrepeats.2
      | inr hsome => exact absurd hnone hsome.1
  · rw [readsElements_some hsize hptr hone (by omega)]
    constructor
    · exact fun hcond => Or.inr ⟨hnone, hcond⟩
    · intro hcond
      cases hcond with
      | inl hrepeats => exact absurd hrepeats.1 hnone
      | inr hsome => exact hsome.2

end Reading

section Writing
variable {size nmemb accepts : Nat} {ptr dst : Buffer Byte} {cells : Nat → Byte}

theorem writeElem_ends (cells : Nat → Byte) (hn : nmemb < 2 ^ 31) (hint : size < 2 ^ 31)
    (hptr : ptr.size = size * nmemb) :
    ∃ buf, forInt nmemb (writeElem size ptr) ⟨nmemb * size, cells⟩ = some buf ∧
      buf.size = size * nmemb ∧
      ∀ i < nmemb, ∀ j < size, buf.cell (size * i + j) = ptr.cell (size * i + (size - 1 - j)) := by
  have hround : writeElem size ptr = fun buf i => (List.range size).foldlM (fun buf j => do
      Buffer.store buf (size * i + j) (← ptr.load (size * (i + 1) - j - 1))) buf := by
    funext buf i
    exact forInt_eq hint buf
  have hplace : ∀ i < nmemb, ∀ j < size, size * i + j = 0 + (size * i + j) :=
    fun i _ j _ => (Nat.zero_add _).symm
  have hbound : ∀ i < nmemb, ∀ j < size,
      0 + (size * i + j) < (⟨nmemb * size, cells⟩ : Buffer Byte).size := by
    intro i hi j hj
    rw [Nat.zero_add]
    exact Nat.lt_of_lt_of_eq (place_lt hi hj) (Nat.mul_comm _ _)
  have hvalue : ∀ i < nmemb, ∀ j < size, ptr.load (size * (i + 1) - j - 1) =
      some (ptr.cell (size * i + (size - 1 - j))) := by
    intro i hi j hj
    have hmirror : size * (i + 1) - j - 1 = size * i + (size - 1 - j) := by
      rw [Nat.mul_succ]
      omega
    rw [hmirror]
    exact Buffer.load_eq (hptr ▸ place_lt hi (by omega))
  obtain ⟨buf, hbuf, hrows⟩ := foldlM_rows le_rfl hplace hbound hvalue
  rw [forInt_eq hn, hround]
  refine ⟨buf, hbuf, hrows.size.trans (Nat.mul_comm _ _), ?_⟩
  intro i hi j hj
  rw [← hrows.written i hi j hj, Nat.zero_add]

/-- The bytes that a stream has when a whole buffer has been written to it. -/
def contents (buf : Buffer Byte) (len : Nat) : List Byte := (List.range len).map buf.cell

theorem contents_get {buf : Buffer Byte} {len k : Nat} (hk : k < len) :
    (contents buf len)[k]? = some (buf.cell k) := by
  simp [contents, hk]

theorem fwrite_eq {buf : Buffer Byte} (haccepts : nmemb ≤ accepts)
    (hbuf : buf.size = size * nmemb) :
    fwrite accepts buf size nmemb [] = some (nmemb, contents buf (size * nmemb)) := by
  rw [fwrite, min_eq_left haccepts, if_pos hbuf.ge]
  rfl

theorem lefwrite_mirrored {alloc : Bool} (haccepts : nmemb ≤ accepts)
    (hptr : ptr.size = size * nmemb)
    (hcond : size = 1 ∨ nmemb = 0 ∨ alloc = true ∧ nmemb < 2 ^ 31 ∧ size < 2 ^ 31) :
    ∃ buf : Buffer Byte, lefwrite alloc cells accepts ptr size nmemb [] =
        some (nmemb, contents buf (size * nmemb)) ∧
      ∀ i < nmemb, ∀ j < size,
        buf.cell (size * i + j) = ptr.cell (size * i + (size - 1 - j)) := by
  by_cases hone : size = 1
  · refine ⟨ptr, ?_, ?_⟩
    · rw [lefwrite, if_pos hone, fwrite_eq haccepts hptr]
    · intro i _ j hj
      have hmirror : size - 1 - j = j := by omega
      rw [hmirror]
  · cases hcond.resolve_left hone with
    | inl hzero =>
      subst hzero
      refine ⟨ptr, ?_, fun i hi => absurd hi (Nat.not_lt_zero i)⟩
      cases alloc <;> simp [lefwrite, hone, forInt, fwrite, contents]
    | inr hready =>
      obtain ⟨rfl, hn, hint⟩ := hready
      obtain ⟨buf, hbuf, hroom, hmirrored⟩ := writeElem_ends cells hn hint hptr
      refine ⟨buf, ?_, hmirrored⟩
      rw [lefwrite, if_neg hone, hbuf]
      exact fwrite_eq haccepts hroom

theorem lefwrite_some {alloc : Bool} {file : List Byte} (hone : size ≠ 1) (hnmemb : nmemb ≠ 0)
    (h : lefwrite alloc cells accepts ptr size nmemb [] = some (nmemb, file)) :
    alloc = true ∧ nmemb < 2 ^ 31 ∧ size < 2 ^ 31 := by
  rw [lefwrite, if_neg hone] at h
  cases alloc with
  | false =>
    have hzero := (Prod.mk.inj (Option.some.inj h)).1
    exact absurd hzero.symm hnmemb
  | true =>
    obtain ⟨buf, hbuf, -⟩ := Option.bind_eq_some_iff.mp h
    obtain ⟨hn, u, v, hround⟩ := forInt_round hbuf (Nat.pos_of_ne_zero hnmemb)
    exact ⟨rfl, hn, (forInt_some hround).1⟩

/-- What lefwrite has written lefread reads back, when both have the memory and their counters
reach their ends. -/
theorem roundTrip_iff {allocWrite allocRead : Bool} (hsize : 1 ≤ size)
    (hptr : ptr.size = size * nmemb) (hdst : dst.size = size * nmemb) (haccepts : nmemb ≤ accepts) :
    RoundTrip allocWrite allocRead cells accepts ptr dst size nmemb ↔
      size = 1 ∨ nmemb = 0 ∨ (allocWrite = true ∧ allocRead = true) ∧ nmemb < 2 ^ 31 ∧
        size < 2 ^ 31 := by
  have hlength (buf : Buffer Byte) : complete size (contents buf (size * nmemb)) = nmemb := by
    rw [complete, contents, List.length_map, List.length_range, Nat.mul_div_cancel_left _ hsize]
  constructor
  · intro htrip
    obtain ⟨file, hfile, p, rest, hp, -⟩ := htrip
    by_cases hone : size = 1
    · exact Or.inl hone
    · by_cases hnmemb : nmemb = 0
      · exact Or.inr (Or.inl hnmemb)
      · obtain ⟨rfl, hn, hint⟩ := lefwrite_some hone hnmemb hfile
        have hready : size = 1 ∨ nmemb = 0 ∨ true = true ∧ nmemb < 2 ^ 31 ∧ size < 2 ^ 31 :=
          Or.inr (Or.inr ⟨rfl, hn, hint⟩)
        obtain ⟨buf, hbuf, -⟩ := @lefwrite_mirrored _ _ _ _ cells true haccepts hptr hready
        obtain ⟨-, rfl⟩ := Prod.mk.inj (Option.some.inj (hfile.symm.trans hbuf))
        have hcount : min nmemb (complete size (contents buf (size * nmemb))) = nmemb := by
          rw [hlength, min_self]
        have hread : lefread allocRead dst size nmemb (contents buf (size * nmemb)) =
            some (min nmemb (complete size (contents buf (size * nmemb))), p, rest) := by
          rw [hcount, hp]
        obtain ⟨rfl, -, -⟩ := lefread_some hsize hdst hone (by rwa [hcount]) hread
        exact Or.inr (Or.inr ⟨⟨rfl, rfl⟩, hn, hint⟩)
  · intro hcond
    have hwrite : size = 1 ∨ nmemb = 0 ∨ allocWrite = true ∧ nmemb < 2 ^ 31 ∧ size < 2 ^ 31 :=
      hcond.imp_right fun h => h.imp_right fun h => ⟨h.1.1, h.2⟩
    obtain ⟨buf, hbuf, hmirrored⟩ := @lefwrite_mirrored _ _ _ _ cells _ haccepts hptr hwrite
    have hpalindromes : Palindromes dst size nmemb (contents buf (size * nmemb)) := by
      intro i hm hi
      rw [hlength] at hm
      exact absurd hi (Nat.not_lt.mpr hm)
    have hread : ReadsElements allocRead dst size nmemb (contents buf (size * nmemb)) := by
      refine (readsElements_iff hsize hdst).mpr (hcond.imp_right fun h => ?_)
      rw [hlength]
      by_cases hnone : nmemb = 0
      · exact Or.inl hnone
      · obtain ⟨halloc, hints⟩ := h.resolve_left hnone
        exact Or.inr (Or.inr ⟨hnone, ⟨halloc.2, hints⟩, hpalindromes⟩)
    obtain ⟨p, rest, hp, helements, -⟩ := hread
    rw [hlength, min_self] at hp helements
    refine ⟨_, hbuf, p, rest, hp, ?_⟩
    intro k hk
    have hi : k / size < nmemb := Nat.div_lt_of_lt_mul hk
    have hj : k % size < size := Nat.mod_lt k hsize
    have hplace : size * (k / size) + k % size = k := Nat.div_add_mod k size
    have hback : size - 1 - (size - 1 - k % size) = k % size := by omega
    have hbyte := helements _ hi _ hj
    rw [contents_get (place_lt hi (by omega)), hmirrored _ hi _ (by omega), hback, hplace] at hbyte
    exact (Option.some.inj hbyte).symm

/-- The two functions keep their promise exactly when the memory is there and nothing is stored or
turned around that was not read as an element, or when this makes no difference. -/
theorem le_io_iff (allocWrite allocRead : Bool) (cells : Nat → Byte) (accepts size nmemb : Nat)
    (ptr dst : Buffer Byte) (stream : List Byte) (hsize : 1 ≤ size)
    (hptr : ptr.size = size * nmemb) (hdst : dst.size = size * nmemb)
    (haccepts : nmemb ≤ accepts) :
    RoundTrip allocWrite allocRead cells accepts ptr dst size nmemb ∧
        ReadsElements allocRead dst size nmemb stream ↔
      size = 1 ∨ nmemb = 0 ∨ ((allocWrite = true ∧ allocRead = true) ∧ nmemb < 2 ^ 31 ∧
        size < 2 ^ 31) ∧ (complete size stream = 0 ∧ Repeats dst stream ∨
          complete size stream ≠ 0 ∧ Palindromes dst size nmemb stream) := by
  rw [roundTrip_iff hsize hptr hdst haccepts, readsElements_iff hsize hdst]
  tauto

theorem le_io_short : (1 : Nat) ≤ 2 ∧
    (RoundTrip true true (fun _ => 0) 2 ⟨4, fun k => BitVec.ofNat 8 k⟩ ⟨4, fun _ => 7⟩ 2 2 ∧
      ReadsElements true ⟨4, fun _ => 7⟩ 2 2 [1, 2, 7]) := by
  refine ⟨by decide, (le_io_iff true true (fun _ => 0) 2 2 2 ⟨4, fun k => BitVec.ofNat 8 k⟩
    ⟨4, fun _ => 7⟩ [1, 2, 7] (by decide) rfl rfl le_rfl).mpr ?_⟩
  have hcount : complete 2 [1, 2, 7] = 1 := rfl
  refine Or.inr (Or.inr ⟨⟨⟨rfl, rfl⟩, by decide, by decide⟩, Or.inr ⟨by decide, ?_⟩⟩)
  intro i hm hi j hj
  have hsecond : i = 1 := by omega
  subst hsecond
  interval_cases j
  · rfl
  · rfl

/-- The second element of the buffer is turned around although the stream has only one. -/
theorem lefread_short :
    ((lefread true ⟨4, fun k => BitVec.ofNat 8 k⟩ 2 2 [8, 9]).map
      fun r => (r.1, (List.range 4).map r.2.1.cell)) = some (1, [9, 8, 3, 2]) ∧
    ¬ReadsElements true ⟨4, fun k => BitVec.ofNat 8 k⟩ 2 2 [8, 9] := by
  refine ⟨by decide +kernel, ?_⟩
  intro hreads
  have hturn := (readsElements_some (by decide) rfl (by decide) (by decide)).mp hreads
  have hcells := hturn.2 1 le_rfl (by decide) 0 (by decide)
  exact absurd hcells (by decide)

end Writing
end EspDrivers.LittleEndian
