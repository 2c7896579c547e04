import EspDrivers.ContigSafe

/-! The chunks that the three policies take, in closed form: PREFERRED empties its node
before it goes on, BALANCED takes turns in clusters until a node runs dry, and
LEAST_LOADED stays on one node. -/
namespace EspDrivers.ContigAlloc
open KeyedStack Trace

local instance : NeZero ddrNodes := ⟨by decide⟩

section Nodes
variable {s t : State} {cs : List Chunk} {d e first : Node}

/-- A search from `d` takes `d` itself, or the other node when `d` is empty. -/
def FoundFrom (s : State) (d e : Node) : Prop :=
  (e = d ∧ s.inactiveChunks d ≠ []) ∨
    (e = d + 1 ∧ s.inactiveChunks d = [] ∧ s.inactiveChunks e ≠ [])

theorem getNextDdrNode_inv {i : Int} (hs : Exact s)
    (h : getNextDdrNode s (d.val : Int) i = .ok e) : FoundFrom s d e := by
  have hle : ¬ s.memSize d < s.memAllocated d := by
    have := hs.le d
    omega
  simp only [getNextDdrNode, index_val, bind, Except.bind, if_neg hle, searchDdrNode] at h
  by_cases hfull : s.memAllocated d = s.memSize d
  · have hempty := (hs.full_iff d).mp hfull
    rw [if_pos hfull] at h
    split at h
    · cases h
    split at h
    · split at h
      · cases h
      · cases h
    · next hroom =>
      right
      obtain rfl := Except.ok.inj h
      exact ⟨rfl, hempty, fun he => hroom ((hs.full_iff _).mpr he)⟩
  · left
    rw [if_neg hfull] at h
    obtain rfl := Except.ok.inj h
    exact ⟨rfl, fun he => hfull ((hs.full_iff _).mpr he)⟩

/-- The nodes that chunks came from, in the order in which they were taken. -/
def origins (cs : List Chunk) : List Node := cs.map Chunk.ddrNode

theorem length_origins (cs : List Chunk) : (origins cs).length = cs.length := List.length_map _

theorem count_origins (d : Node) (cs : List Chunk) : (origins cs).count d = onNode d cs := by
  simp [origins, onNode, List.count, List.countP_map, Function.comp_def, beq_eq_decide]

theorem Taken.filter_eq (h : Taken s cs t) (d : Node) :
    cs.filter (fun ch => ch.ddrNode = d) = (s.inactiveChunks d).take (onNode d cs) := by
  rw [h.pops.split d, onNode_eq_length, List.take_left']
  rfl

end Nodes

section Preferred
variable {s : State} {first : Node}

/-- The other node gives chunks only once the preferred one is empty. -/
def PreferredSoFar (first : Node) (ds : List Node) (s : State) (v : Int) : Prop :=
  Exact s ∧ ∃ (d : Node) (k l : Nat), v = (d.val : Int) ∧
    ds = List.replicate k first ++ List.replicate l (first + 1) ∧
    ((d = first ∧ l = 0) ∨ (d = first + 1 ∧ s.inactiveChunks first = []))

theorem nextPreferred_keeps (first : Node) :
    Keeps (nextPreferred (first.val : Int)) (PreferredSoFar first) := by
  intro ds s v e v' ch t hj hn hch ht
  obtain ⟨hx, d, k, l, rfl, rfl, hd⟩ := hj
  obtain ⟨e', he, hn⟩ := bind_ok.mp hn
  obtain ⟨rfl, rfl⟩ : e' = e ∧ (e'.val : Int) = v' := by simpa using Except.ok.inj hn
  have hlen := ht.length first
  have hinv := getNextDdrNode_inv hx he
  refine ⟨ht.exact hx, e', ?_⟩
  have hdry (hempty : s.inactiveChunks first = []) : t.inactiveChunks first = [] := by
    rw [hempty, List.length_nil] at hlen
    exact List.length_eq_zero_iff.mp (by omega)
  rcases hd with ⟨rfl, rfl⟩ | ⟨rfl, hempty⟩
  · rcases hinv with ⟨rfl, -⟩ | ⟨rfl, hempty, -⟩
    · refine ⟨k + 1, 0, rfl, ?_, Or.inl ⟨rfl, rfl⟩⟩
      simp [List.replicate_succ']
    · refine ⟨k, 1, rfl, ?_, Or.inr ⟨rfl, hdry hempty⟩⟩
      simp
  · rcases hinv with ⟨rfl, -⟩ | ⟨rfl, -, hne⟩
    · refine ⟨k, l + 1, rfl, ?_, Or.inr ⟨rfl, hdry hempty⟩⟩
      simp [List.replicate_succ']
    · -- the search does not come back to the preferred node, which is empty
      have hback : first + 1 + 1 = first := by
        fin_cases first <;> decide
      rw [hback] at hne
      exact absurd hempty hne

theorem filter_split {a b : Node} {k l : Nat} {cs : List Chunk} (hab : a ≠ b)
    (h : origins cs = List.replicate k a ++ List.replicate l b) :
    cs = (cs.filter fun ch => ch.ddrNode = a) ++ cs.filter fun ch => ch.ddrNode = b := by
  obtain ⟨xs, ys, rfl, hxs, hys⟩ := List.map_eq_append_iff.mp h
  have hx : ∀ ch ∈ xs, ch.ddrNode = a := by
    intro ch hch
    have hmem : ch.ddrNode ∈ List.replicate k a := hxs ▸ List.mem_map_of_mem hch
    exact (List.mem_replicate.mp hmem).2
  have hy : ∀ ch ∈ ys, ch.ddrNode = b := by
    intro ch hch
    have hmem : ch.ddrNode ∈ List.replicate l b := hys ▸ List.mem_map_of_mem hch
    exact (List.mem_replicate.mp hmem).2
  have hxa : xs.filter (fun ch => ch.ddrNode = a) = xs :=
    List.filter_eq_self.mpr fun ch hch => by simp [hx ch hch]
  have hxb : xs.filter (fun ch => ch.ddrNode = b) = [] :=
    List.filter_eq_nil_iff.mpr fun ch hch => by simp [hx ch hch, hab]
  have hya : ys.filter (fun ch => ch.ddrNode = a) = [] :=
    List.filter_eq_nil_iff.mpr fun ch hch => by simp [hy ch hch, Ne.symm hab]
  have hyb : ys.filter (fun ch => ch.ddrNode = b) = ys :=
    List.filter_eq_self.mpr fun ch hch => by simp [hy ch hch]
  rw [List.filter_append, List.filter_append, hxa, hxb, hya, hyb, List.append_nil, List.nil_append]

def preferredChunks (s : State) (first : Node) (n : Nat) : List Chunk :=
  (s.inactiveChunks first).take n ++
    (s.inactiveChunks (first + 1)).take (n - (s.inactiveChunks first).length)

theorem PreferredSoFar.chunks {t : State} {v : Int} {cs : List Chunk} (ht : Taken s cs t)
    (hj : PreferredSoFar first (origins cs) t v) : cs = preferredChunks s first cs.length := by
  obtain ⟨-, d, k, l, -, hds, hd⟩ := hj
  have hne : first ≠ first + 1 := (node_succ_ne first).symm
  have hk : onNode first cs = k := by
    rw [← count_origins, hds]
    simp [List.count_replicate, hne.symm]
  have hl : onNode (first + 1) cs = l := by
    rw [← count_origins, hds]
    simp [List.count_replicate, hne]
  have hn : cs.length = k + l := by
    rw [← length_origins, hds]
    simp
  have hlen := ht.length first
  have hfirst : (s.inactiveChunks first).take k = (s.inactiveChunks first).take cs.length ∧
      l = cs.length - (s.inactiveChunks first).length := by
    rcases hd with ⟨-, rfl⟩ | ⟨-, hempty⟩
    · exact ⟨by rw [hn, Nat.add_zero], by omega⟩
    · rw [hempty, List.length_nil] at hlen
      refine ⟨?_, by omega⟩
      rw [List.take_of_length_le (by omega), List.take_of_length_le (by omega)]
  have hsplit := filter_split hne hds
  rw [ht.filter_eq, ht.filter_eq, hk, hl, hfirst.1, hfirst.2] at hsplit
  exact hsplit

def FillsFirst (s : State) (desc : Desc) (first : Node) : Prop :=
  ∃ t desc', contigAllocPreferred s desc (first.val : Int) = .ok (t, desc') ∧
    Taken s (preferredChunks s first desc.n) t ∧ desc'.Filled (preferredChunks s first desc.n)

theorem Exact.fillsFirst {desc : Desc} (hs : NodeOk s) (hx : Exact s) (hb : desc.Blank)
    (hn : desc.n ≤ freeChunks s) (first : Node) : FillsFirst s desc first := by
  have hinv : PreferredInv first desc.n s (first.val : Int) := ⟨hx, hn, first, rfl, Or.inl rfl⟩
  obtain ⟨q, hq⟩ := allocAll_completes (nextPreferred_leads first) hs hinv hb
  have hstart : PreferredSoFar first [] s (first.val : Int) :=
    ⟨hx, first, 0, 0, rfl, rfl, Or.inl ⟨rfl, rfl⟩⟩
  obtain ⟨cs, hcs, ht, hf, -, v, hj⟩ := allocAll_keeps (nextPreferred_keeps first) hs hb hstart hq
  have heq : cs = preferredChunks s first desc.n := by
    rw [← hcs]
    exact PreferredSoFar.chunks ht hj
  rw [heq] at ht hf
  refine ⟨q.s, { q.desc with mostAllocated := mostAllocated q.nPerNode }, ?_, ht, hf⟩
  simp only [contigAllocPreferred, hq, bind, Except.bind]

end Preferred

section Balanced
variable {s s₀ t : State} {start d e : Node} {c : Nat} {v v' : Node × Nat} {ds : List Node}

def turn (start : Node) (c i : Nat) : Node :=
  ⟨(start.val + i / c) % ddrNodes, Nat.mod_lt _ (by decide)⟩

theorem turn_add (start : Node) (c k r : Nat) (hr : r < c) :
    (turn start c (k * c + r)).val = (start.val + k) % ddrNodes := by
  have hc : 0 < c := Nat.zero_lt_of_lt hr
  have hdiv : (k * c + r) / c = k := by
    rw [Nat.add_comm, Nat.add_mul_div_right _ _ hc, Nat.div_eq_of_lt hr, Nat.zero_add]
  change (start.val + (k * c + r) / c) % ddrNodes = _
  rw [hdiv]

def StillHas (s : State) (ds : List Node) (i : Nat) (d : Node) : Prop :=
  (ds.take i).count d < (s.inactiveChunks d).length

/-- The nodes take turns until the one whose turn it is has no chunk left, at `i`; from
there on the other node gives them all. -/
def Clustered (s : State) (start : Node) (c : Nat) (ds : List Node) : Prop :=
  ∃ i ≤ ds.length,
    (∀ j < i, StillHas s ds j (turn start c j) ∧ ds[j]? = some (turn start c j)) ∧
    (i < ds.length → ¬ StillHas s ds i (turn start c i)) ∧
    ∀ j, i ≤ j → j < ds.length → ds[j]? = some (turn start c i + 1)

def searchStart (c : Nat) (v : Node × Nat) : Node := if v.2 = c then v.1 + 1 else v.1

theorem nextBalanced_eq (c : Nat) (s : State) (v : Node × Nat) : nextBalanced c s v =
    (getNextDdrNode s ((searchStart c v).val : Int) ((searchStart c v).val : Int)).bind fun d =>
      .ok (d, (d, if v.1 = d then v.2 + 1 else 1)) := by
  have hend (d : Node) : (if v.1 ≠ d then Except.ok (d, (d, 1)) else Except.ok (d, (d, v.2 + 1)) :
      Except Fault (Node × (Node × Nat))) = .ok (d, (d, if v.1 = d then v.2 + 1 else 1)) := by
    by_cases hd : v.1 = d
    · rw [if_neg (not_not.mpr hd), if_pos hd]
    · rw [if_pos hd, if_neg hd]
  rw [nextBalanced, searchStart]
  split
  · simp only [bind, hend]
  · simp only [bind, hend]

theorem nextBalanced_inv (h : nextBalanced c s v = .ok (e, v')) :
    getNextDdrNode s ((searchStart c v).val : Int) ((searchStart c v).val : Int) = .ok e ∧
      v' = (e, if v.1 = e then v.2 + 1 else 1) := by
  rw [nextBalanced_eq] at h
  obtain ⟨d, hd, h⟩ := bind_ok.mp h
  obtain ⟨rfl, rfl⟩ : d = e ∧ (d, if v.1 = d then v.2 + 1 else 1) = v' := by
    simpa using Except.ok.inj h
  exact ⟨hd, rfl⟩

/-- All nodes so far took their turn; `v` says how far the current cluster is. -/
def InTurn (s₀ : State) (start : Node) (c : Nat) (ds : List Node) (v : Node × Nat) : Prop :=
  (∀ j < ds.length, StillHas s₀ ds j (turn start c j) ∧ ds[j]? = some (turn start c j)) ∧
    ∃ k, v.1.val = (start.val + k) % ddrNodes ∧ ds.length = k * c + v.2 ∧ v.2 ≤ c

def RanDry (s₀ s : State) (start : Node) (c : Nat) (ds : List Node) (v : Node × Nat) : Prop :=
  ∃ i < ds.length,
    (∀ j < i, StillHas s₀ ds j (turn start c j) ∧ ds[j]? = some (turn start c j)) ∧
    ¬ StillHas s₀ ds i (turn start c i) ∧
    (∀ j, i ≤ j → j < ds.length → ds[j]? = some (turn start c i + 1)) ∧
    s.inactiveChunks (turn start c i) = [] ∧ v.1 = turn start c i + 1

def BalancedSoFar (s₀ : State) (start : Node) (c : Nat) (ds : List Node) (s : State)
    (v : Node × Nat) : Prop :=
  Exact s ∧ (∀ d, (s₀.inactiveChunks d).length = ds.count d + (s.inactiveChunks d).length) ∧
    (InTurn s₀ start c ds v ∨ RanDry s₀ s start c ds v)

theorem StillHas.append {j : Nat} (hj : j ≤ ds.length) (es : List Node) :
    StillHas s (ds ++ es) j d ↔ StillHas s ds j d := by
  rw [StillHas, StillHas, List.take_append_of_le_length hj]

theorem inTurn_append {i : Nat} (hi : i ≤ ds.length) (es : List Node)
    (h : ∀ j < i, StillHas s ds j (turn start c j) ∧ ds[j]? = some (turn start c j)) :
    ∀ j < i, StillHas s (ds ++ es) j (turn start c j) ∧ (ds ++ es)[j]? = some (turn start c j) := by
  intro j hj
  obtain ⟨hstill, hget⟩ := h j hj
  refine ⟨(StillHas.append (by omega) es).mpr hstill, ?_⟩
  rw [List.getElem?_append_left (by omega)]
  exact hget

theorem InTurn.starts (hc : 0 < c) (h : InTurn s₀ start c ds v) :
    searchStart c v = turn start c ds.length := by
  obtain ⟨-, k, hk, hlen, hle⟩ := h
  apply Fin.ext
  rw [searchStart]
  split
  · next heq =>
    have hnext : ds.length = (k + 1) * c + 0 := by
      rw [hlen, heq, Nat.add_mul]
      omega
    rw [hnext, turn_add _ _ _ _ hc, Fin.val_add, hk]
    change ((start.val + k) % 2 + 1) % 2 = (start.val + (k + 1)) % 2
    omega
  · next hne =>
    rw [hlen, turn_add _ _ _ _ (by omega), hk]

theorem InTurn.gives (hc : 0 < c) (h : InTurn s₀ start c ds v)
    (hstill : StillHas s₀ ds ds.length (turn start c ds.length))
    (hv : v' = (turn start c ds.length, if v.1 = turn start c ds.length then v.2 + 1 else 1)) :
    InTurn s₀ start c (ds ++ [turn start c ds.length]) v' := by
  have hcand := h.starts hc
  rw [searchStart] at hcand
  obtain ⟨hturn, k, hk, hlen, hle⟩ := h
  refine ⟨?_, ?_⟩
  · intro j hj
    rw [List.length_append, List.length_singleton] at hj
    by_cases hlt : j < ds.length
    · exact inTurn_append (le_refl _) _ hturn j hlt
    · obtain rfl : j = ds.length := by omega
      exact ⟨(StillHas.append (le_refl _) _).mpr hstill, by simp⟩
  · subst hv
    by_cases heq : v.2 = c
    · rw [if_pos heq] at hcand
      have hne : v.1 ≠ turn start c ds.length := by
        rw [← hcand]
        exact (node_succ_ne v.1).symm
      refine ⟨k + 1, ?_, ?_, ?_⟩
      · rw [← hcand, Fin.val_add, hk]
        change ((start.val + k) % 2 + 1) % 2 = (start.val + (k + 1)) % 2
        omega
      · rw [if_neg hne, List.length_append, List.length_singleton, hlen, heq, Nat.add_mul]
        omega
      · rw [if_neg hne]
        exact hc
    · rw [if_neg heq] at hcand
      refine ⟨k, ?_, ?_, ?_⟩
      · rw [← hcand, hk]
      · rw [if_pos hcand, List.length_append, List.length_singleton, hlen]
        omega
      · rw [if_pos hcand]
        omega

theorem length_updated {ch : Chunk} (ht : Taken s [ch] t) (hch : ch.ddrNode = e)
    (hlens : ∀ d, (s₀.inactiveChunks d).length = ds.count d + (s.inactiveChunks d).length) :
    ∀ d, (s₀.inactiveChunks d).length = (ds ++ [e]).count d + (t.inactiveChunks d).length := by
  intro d
  rw [hlens d, ht.length d, onNode_cons, onNode_nil, List.count_append, List.count_singleton, hch]
  by_cases hd : e = d
  · simp [hd]
    omega
  · simp [hd]

theorem search_other (hd : s.inactiveChunks d = []) (hv : v.1 = d + 1)
    (hfound : FoundFrom s (searchStart c v) e) : e = d + 1 := by
  have hback : d + 1 + 1 = d :=
    ((node_eq_or_succ (d + 1) d).resolve_left (node_succ_ne _).symm).symm
  rw [searchStart, hv] at hfound
  split at hfound
  · rw [hback] at hfound
    rcases hfound with ⟨-, hne⟩ | ⟨he, -⟩
    · exact absurd hd hne
    · exact he
  · rcases hfound with ⟨he, -⟩ | ⟨he, -, hne⟩
    · exact he
    · rw [he, hback] at hne
      exact absurd hd hne

theorem RanDry.gives (h : RanDry s₀ s start c ds v) (hempty : ∀ d, s.inactiveChunks d = [] →
      t.inactiveChunks d = [])
    (hfound : FoundFrom s (searchStart c v) e) (hv : v'.1 = e) : RanDry s₀ t start c (ds ++ [e]) v' := by
  obtain ⟨i, hi, hturn, hdry, hother, hnil, hv1⟩ := h
  have hsame := search_other hnil hv1 hfound
  refine ⟨i, by rw [List.length_append]; omega, inTurn_append hi.le _ hturn, ?_, ?_,
    hempty _ hnil, hv.trans hsame⟩
  · rw [StillHas.append hi.le]
    exact hdry
  · intro j hj hlt
    rw [List.length_append, List.length_singleton] at hlt
    by_cases hlast : j < ds.length
    · rw [List.getElem?_append_left hlast]
      exact hother j hj hlast
    · obtain rfl : j = ds.length := by omega
      rw [hsame]
      simp

theorem InTurn.runsDry (h : InTurn s₀ start c ds v)
    (hcount : (s₀.inactiveChunks (turn start c ds.length)).length =
      ds.count (turn start c ds.length))
    (hempty : t.inactiveChunks (turn start c ds.length) = [])
    (hv : v'.1 = turn start c ds.length + 1) :
    RanDry s₀ t start c (ds ++ [turn start c ds.length + 1]) v' := by
  refine ⟨ds.length, by simp, inTurn_append (le_refl _) _ h.1, ?_, ?_, hempty, hv⟩
  · rw [StillHas.append (le_refl _), StillHas, List.take_length]
    omega
  · intro j hj hlt
    rw [List.length_append, List.length_singleton] at hlt
    obtain rfl : j = ds.length := by omega
    simp

theorem nextBalanced_keeps (s₀ : State) (start : Node) (hc : 0 < c) :
    Keeps (nextBalanced c) (BalancedSoFar s₀ start c) := by
  intro ds s v e v' ch t hj hn hch ht
  obtain ⟨hx, hlens, hphase⟩ := hj
  obtain ⟨he, hv⟩ := nextBalanced_inv hn
  have hfound := getNextDdrNode_inv hx he
  have hempty (d : Node) (hd : s.inactiveChunks d = []) : t.inactiveChunks d = [] := by
    have hlen := ht.length d
    rw [hd, List.length_nil] at hlen
    exact List.length_eq_zero_iff.mp (by omega)
  refine ⟨ht.exact hx, length_updated ht hch hlens, ?_⟩
  cases hphase with
  | inl hin =>
    have hcand := hin.starts hc
    have hroom := hlens (turn start c ds.length)
    rw [hcand] at hfound
    rcases hfound with ⟨rfl, hne⟩ | ⟨rfl, hnil, -⟩
    · left
      refine hin.gives hc ?_ hv
      have hpos := List.length_pos_of_ne_nil hne
      rw [StillHas, List.take_length]
      omega
    · right
      rw [hnil, List.length_nil, Nat.add_zero] at hroom
      exact hin.runsDry hroom (hempty _ hnil) (by rw [hv])
  | inr hdry =>
    exact Or.inr (hdry.gives hempty hfound (by rw [hv]))

theorem BalancedSoFar.clustered (h : BalancedSoFar s₀ start c ds s v) :
    Clustered s₀ start c ds := by
  obtain ⟨-, -, hin | ⟨i, hi, hturn, hdry, hother, -⟩⟩ := h
  · exact ⟨ds.length, le_refl _, hin.1, fun hlt => absurd hlt (lt_irrefl _), fun j _ _ => by omega⟩
  · exact ⟨i, hi.le, hturn, fun _ => hdry, hother⟩

def TakesTurns (s : State) (desc : Desc) (threshold c : Nat) : Prop :=
  ∃ t desc' cs, contigAllocBalanced s desc threshold c = .ok (t, desc') ∧
    cs.length = desc.n ∧ Taken s cs t ∧ desc'.Filled cs ∧
    Clustered s (getLeastLoadedDdrNode s 1 threshold) c (origins cs)

theorem Exact.takesTurns {desc : Desc} (hs : NodeOk s) (hx : Exact s) (hb : desc.Blank)
    (hn : desc.n ≤ freeChunks s) (threshold : Nat) (hc : 0 < c) :
    TakesTurns s desc threshold c := by
  have hinv : BalancedInv desc.n s (getLeastLoadedDdrNode s 1 threshold, 0) := ⟨hx, hn⟩
  obtain ⟨q, hq⟩ := allocAll_completes (nextBalanced_leads c) hs hinv hb
  have hstart : BalancedSoFar s (getLeastLoadedDdrNode s 1 threshold) c [] s
      (getLeastLoadedDdrNode s 1 threshold, 0) := by
    refine ⟨hx, fun d => by simp, Or.inl ⟨fun j hj => by simp at hj, 0, ?_, by simp, by simp⟩⟩
    exact (Nat.mod_eq_of_lt (Fin.isLt _)).symm
  obtain ⟨cs, hcs, ht, hf, -, v, hj⟩ :=
    allocAll_keeps (nextBalanced_keeps s _ hc) hs hb hstart hq
  refine ⟨q.s, { q.desc with mostAllocated := mostAllocated q.nPerNode }, cs, ?_, hcs, ht, hf,
    hj.clustered⟩
  simp only [contigAllocBalanced, hq, bind, Except.bind]

end Balanced

section LeastLoaded
variable {s : State} {n threshold : Nat} {d : Node}

theorem fits_iff (hx : Exact s) (hn : n * s.chunkSize < 2 ^ 64) (i : Node) :
    ulong (n * s.chunkSize) ≤ ulongSub (s.memSize i) (s.memAllocated i) ↔
      n ≤ (s.inactiveChunks i).length := by
  rw [hx.ulongSub_eq, ulong, Nat.mod_eq_of_lt hn, Nat.mul_comm]
  exact Nat.mul_le_mul_left_iff hx.pos

theorem leastLoadedAllocOk_iff (hx : Exact s) (hn : n * s.chunkSize < 2 ^ 64) :
    leastLoadedAllocOk s n = true ↔ ∃ d, n ≤ (s.inactiveChunks d).length := by
  have hall : leastLoadedAllocOk s n = true ↔ ∃ d ∈ nodes, n ≤ (s.inactiveChunks d).length := by
    simp [leastLoadedAllocOk, fits_iff hx hn]
  rw [hall]
  constructor
  · rintro ⟨d, -, hd⟩
    exact ⟨d, hd⟩
  · rintro ⟨d, hd⟩
    exact ⟨d, mem_nodes d, hd⟩

/-- Node 1 is the choice if it fits, unless node 0 fits too and is lighter by more than
the threshold. -/
theorem getLeastLoadedDdrNode_eq (hx : Exact s) (hn : n * s.chunkSize < 2 ^ 64)
    (hth : threshold ≤ s.memSize 0 / s.chunkSize) : getLeastLoadedDdrNode s n threshold =
      if n ≤ (s.inactiveChunks 1).length then
        if s.memAllocated 0 + threshold * s.chunkSize < s.memAllocated 1 ∧
          n ≤ (s.inactiveChunks 0).length then 0 else 1
      else 0 := by
  have hroom := hx.room 0
  have hword : threshold * s.chunkSize ≤ s.memSize 0 := (Nat.le_div_iff_mul_le hx.pos).mp hth
  have hle0 := hx.le 0
  have hle1 := hx.le 1
  have hsum : ulong (s.memAllocated 0 + ulong (threshold * s.chunkSize)) =
      s.memAllocated 0 + threshold * s.chunkSize := by
    simp only [ulong]
    omega
  by_cases h1 : n ≤ (s.inactiveChunks 1).length
  · simp [getLeastLoadedDdrNode, nodes, List.finRange_succ, fits_iff hx hn, hsum, h1, hle1]
  · simp [getLeastLoadedDdrNode, nodes, List.finRange_succ, fits_iff hx hn, h1]

def LeastLoadedSoFar (d : Node) (ds : List Node) (_ : State) (v : Node) : Prop :=
  v = d ∧ ds = List.replicate ds.length d

theorem nextLeastLoaded_keeps (d : Node) : Keeps nextLeastLoaded (LeastLoadedSoFar d) := by
  intro ds s v e v' ch t hj hn _ _
  obtain ⟨rfl, hds⟩ := hj
  obtain ⟨rfl, rfl⟩ : v = e ∧ v = v' := by simpa [nextLeastLoaded] using Except.ok.inj hn
  refine ⟨rfl, ?_⟩
  rw [List.length_append, List.length_singleton, List.replicate_succ', ← hds]

def TakesAllFrom (s : State) (desc : Desc) (threshold : Nat) (d : Node) : Prop :=
  ∃ t desc', contigAllocLeastLoaded s desc threshold = .ok (.ok (t, desc')) ∧
    Taken s ((s.inactiveChunks d).take desc.n) t ∧
    desc'.Filled ((s.inactiveChunks d).take desc.n) ∧ desc'.mostAllocated = d

/-- LEAST_LOADED fails when no node has room for the buffer, and changes nothing then; else
it takes a node that has, and of two it takes node 0 when that one is lighter by more than
the threshold. -/
structure ChoosesNode (s : State) (desc : Desc) (threshold : Nat) : Prop where
  fails : (∀ d, (s.inactiveChunks d).length < desc.n) →
    contigAllocLeastLoaded s desc threshold = .ok (.error .enomem) ∧
      ∀ m : Kmalloc, m.pick s.heap ≠ none →
        contigAllocChunks s (.leastLoaded threshold) desc.n m = .ok (s, .error .enomem)
  takes : (∃ d, desc.n ≤ (s.inactiveChunks d).length) →
    ∃ d, desc.n ≤ (s.inactiveChunks d).length ∧
      ((∀ e, desc.n ≤ (s.inactiveChunks e).length) →
        (d = 0 ↔ s.memAllocated 0 + threshold * s.chunkSize < s.memAllocated 1)) ∧
      TakesAllFrom s desc threshold d

theorem Exact.takesAllFrom {desc : Desc} (hs : NodeOk s) (hx : Exact s) (hb : desc.Blank)
    (hn : desc.n * s.chunkSize < 2 ^ 64) (hfit : ∃ d, desc.n ≤ (s.inactiveChunks d).length) :
    TakesAllFrom s desc threshold (getLeastLoadedDdrNode s desc.n threshold) := by
  have hok := (leastLoadedAllocOk_iff hx hn).mpr hfit
  have hinv : LeastLoadedInv (getLeastLoadedDdrNode s desc.n threshold) desc.n s
      (getLeastLoadedDdrNode s desc.n threshold) := ⟨rfl, getLeastLoadedDdrNode_fits hx hn hok⟩
  obtain ⟨q, hq⟩ := allocAll_completes (nextLeastLoaded_leads _) hs hinv hb
  obtain ⟨cs, hcs, ht, hf, -, v, -, hds⟩ :=
    allocAll_keeps (nextLeastLoaded_keeps _) hs hb ⟨rfl, rfl⟩ hq
  have hall : ∀ ch ∈ cs, ch.ddrNode = getLeastLoadedDdrNode s desc.n threshold := by
    intro ch hch
    have hmem : ch.ddrNode ∈ origins cs := List.mem_map_of_mem hch
    rw [origins, hds] at hmem
    exact (List.mem_replicate.mp hmem).2
  have hself : cs.filter (fun ch => ch.ddrNode = getLeastLoadedDdrNode s desc.n threshold) = cs :=
    List.filter_eq_self.mpr fun ch hch => by simp [hall ch hch]
  have hcount : onNode (getLeastLoadedDdrNode s desc.n threshold) cs = desc.n := by
    rw [onNode_eq_length, hself, hcs]
  have heq := ht.filter_eq (getLeastLoadedDdrNode s desc.n threshold)
  rw [hself, hcount] at heq
  rw [heq] at ht hf
  refine ⟨q.s, { q.desc with mostAllocated := getLeastLoadedDdrNode s desc.n threshold }, ?_, ht,
    hf, rfl⟩
  simp only [contigAllocLeastLoaded, if_pos hok, hq, bind, Except.bind]

theorem Exact.choosesNode {desc : Desc} (hs : NodeOk s) (hx : Exact s) (hb : desc.Blank)
    (hn : desc.n * s.chunkSize < 2 ^ 64) (hth : threshold ≤ s.memSize 0 / s.chunkSize) :
    ChoosesNode s desc threshold := by
  refine ⟨?_, ?_⟩
  · intro hnone
    have hno : ¬ leastLoadedAllocOk s desc.n = true := by
      rw [leastLoadedAllocOk_iff hx hn]
      rintro ⟨d, hd⟩
      have := hnone d
      omega
    refine ⟨by rw [contigAllocLeastLoaded, if_neg hno], ?_⟩
    intro m hm
    obtain ⟨r, hr⟩ := Option.ne_none_iff_exists'.mp hm
    simp only [contigAllocChunks, contigAllocDescriptor, hr, allocByPolicy, contigAllocLeastLoaded,
      if_neg hno, bind, Except.bind]
  · intro hfit
    have hok := (leastLoadedAllocOk_iff hx hn).mpr hfit
    refine ⟨getLeastLoadedDdrNode s desc.n threshold, getLeastLoadedDdrNode_fits hx hn hok, ?_,
      hx.takesAllFrom hs hb hn hfit⟩
    intro hboth
    rw [getLeastLoadedDdrNode_eq hx hn hth, if_pos (hboth 1)]
    by_cases hlight : s.memAllocated 0 + threshold * s.chunkSize < s.memAllocated 1
    · rw [if_pos ⟨hlight, hboth 0⟩]
      simp [hlight]
    · rw [if_neg (fun h => hlight h.1)]
      simp [hlight]

end LeastLoaded

section Reachable
variable {p : Insmod} {o : InitCalls} {s0 s : State} {ops : List Op} {desc : Desc}

theorem preferred_fills_first (h : contigInit p o = .ok s0)
    (hfew : ∀ i, s0.memSize i / s0.chunkSize < 2 ^ 31) (hr : run step s0 ops = some s)
    (hb : desc.Blank) (hn : desc.n ≤ freeChunks s) (first : Node) : FillsFirst s desc first := by
  have hs := consistent_run h hr
  have hx := exact_of_consistent h hfew hs
  exact hx.fillsFirst (hs.nodeOk (small_init h)) hb hn first

def blank (n : Nat) : Desc := ⟨List.replicate n 0, 0, n, 0, []⟩

theorem preferred_fills_first_full : ∃ s, run step (initState smallInsmod)
    [.alloc (.preferred 1) 28672 (blockAt 64)] = some s ∧
      (preferredChunks s 1 3).map Chunk.paddr = [2125824, 1048576, 1052672] ∧
      FillsFirst s (blank 3) 1 := by
  have h : ∃ s, run step (initState smallInsmod) [.alloc (.preferred 1) 28672 (blockAt 64)] =
      some s ∧ (preferredChunks s 1 3).map Chunk.paddr = [2125824, 1048576, 1052672] ∧
        3 ≤ freeChunks s := ⟨_, rfl, rfl, by decide⟩
  obtain ⟨s, hr, haddrs, hn⟩ := h
  exact ⟨s, hr, haddrs, preferred_fills_first contigInit_small (by decide) hr ⟨rfl, rfl⟩ hn 1⟩

/-- Node 0 promises 2 ^ 31 chunks of 4 KiB, of which none is created; node 1 has eight. -/
def mixedInsmod : Insmod :=
  ⟨12, fun i => 2 ^ 44 * (i.val + 1), fun i => if i = 0 then 2 ^ 43 else 2 ^ 15⟩

theorem contigInit_mixed : contigInit mixedInsmod allOk = .ok (initState mixedInsmod) := by
  have hn : ¬ ∃ i, mixedInsmod.memSize i = 0 ∨ mixedInsmod.memSize i < mixedInsmod.chunkSize := by
    decide
  rw [contigInit]
  rw [if_neg (by decide), if_neg (by decide), if_neg (by decide), if_neg hn]
  simp [allOk]

/-- The counters of node 0 show room that its list does not have. -/
theorem preferred_misses_chunks : ¬ ∀ (p : Insmod) (o : InitCalls) (s0 s : State) (ops : List Op)
    (desc : Desc) (first : Node), contigInit p o = .ok s0 → run step s0 ops = some s →
      desc.Blank → desc.n ≤ freeChunks s → FillsFirst s desc first := by
  intro h
  obtain ⟨t, desc', hres, -⟩ := h mixedInsmod allOk _ _ [] (blank 1) 0 contigInit_mixed rfl
    ⟨rfl, rfl⟩ (by decide)
  have hbug : contigAllocPreferred (initState mixedInsmod) (blank 1) ((0 : Node).val : Int) =
      .error .bug := rfl
  rw [hbug] at hres
  cases hres

/-- BALANCED in every reachable state, with parameters that the module accepts. -/
theorem balanced_takes_turns (h : contigInit p o = .ok s0)
    (hfew : ∀ i, s0.memSize i / s0.chunkSize < 2 ^ 31) (hr : run step s0 ops = some s)
    (hb : desc.Blank) (hn : desc.n ≤ freeChunks s) {threshold c : Nat}
    (hok : contigAllocOk s (.balanced threshold c) = true) : TakesTurns s desc threshold c := by
  have hs := consistent_run h hr
  have hx := exact_of_consistent h hfew hs
  have hc : ¬ c < 1 := by
    intro hlt
    simp [contigAllocOk, hlt] at hok
  exact hx.takesTurns (hs.nodeOk (small_init h)) hb hn threshold (by omega)

theorem balanced_takes_turns_two : ∃ s, run step (initState smallInsmod)
    [.alloc (.preferred 0) 24576 (blockAt 64)] = some s ∧ TakesTurns s (blank 7) 0 2 := by
  have h : ∃ s, run step (initState smallInsmod) [.alloc (.preferred 0) 24576 (blockAt 64)] =
      some s ∧ 7 ≤ freeChunks s ∧ contigAllocOk s (.balanced 0 2) = true :=
    ⟨_, rfl, by decide, rfl⟩
  obtain ⟨s, hr, hn, hok⟩ := h
  exact ⟨s, hr, balanced_takes_turns contigInit_small (by decide) hr ⟨rfl, rfl⟩ hn hok⟩

theorem balanced_misses_chunks : ¬ ∀ (p : Insmod) (o : InitCalls) (s0 s : State) (ops : List Op)
    (desc : Desc) (threshold c : Nat), contigInit p o = .ok s0 → run step s0 ops = some s →
      desc.Blank → desc.n ≤ freeChunks s → contigAllocOk s (.balanced threshold c) = true →
        TakesTurns s desc threshold c := by
  intro h
  obtain ⟨t, desc', cs, hres, -⟩ := h mixedInsmod allOk _ _ [] (blank 2) 0 1 contigInit_mixed rfl
    ⟨rfl, rfl⟩ (by decide) rfl
  have hbug : contigAllocBalanced (initState mixedInsmod) (blank 2) 0 1 = .error .bug := rfl
  rw [hbug] at hres
  cases hres

/-- LEAST_LOADED in every reachable state, with a threshold that the module accepts. -/
theorem least_loaded_chooses (h : contigInit p o = .ok s0)
    (hfew : ∀ i, s0.memSize i / s0.chunkSize < 2 ^ 31) (hr : run step s0 ops = some s)
    (hb : desc.Blank) (hn : desc.n * s.chunkSize ≤ memFree s) {threshold : Nat}
    (hok : contigAllocOk s (.leastLoaded threshold) = true) : ChoosesNode s desc threshold := by
  have hs := consistent_run h hr
  have hx := exact_of_consistent h hfew hs
  have hlt := hx.total_lt
  rw [hx.memFree_eq] at hn
  have hth : threshold ≤ s.memSize 0 / s.chunkSize := by
    simpa [contigAllocOk] using hok
  exact hx.choosesNode (hs.nodeOk (small_init h)) hb (by omega) hth

theorem least_loaded_chooses_light : ∃ s, run step (initState smallInsmod)
    [.alloc (.preferred 1) 12288 (blockAt 64)] = some s ∧
      s.memAllocated 0 + 2 * s.chunkSize < s.memAllocated 1 ∧ ChoosesNode s (blank 5) 2 := by
  have h : ∃ s, run step (initState smallInsmod) [.alloc (.preferred 1) 12288 (blockAt 64)] =
      some s ∧ s.memAllocated 0 + 2 * s.chunkSize < s.memAllocated 1 ∧
        5 * s.chunkSize ≤ memFree s ∧ contigAllocOk s (.leastLoaded 2) = true :=
    ⟨_, rfl, by decide, by decide, rfl⟩
  obtain ⟨s, hr, hlight, hn, hok⟩ := h
  exact ⟨s, hr, hlight, least_loaded_chooses contigInit_small (by decide) hr ⟨rfl, rfl⟩ hn hok⟩

theorem least_loaded_misses_chunks : ¬ ∀ (p : Insmod) (o : InitCalls) (s0 s : State)
    (ops : List Op) (desc : Desc) (threshold : Nat), contigInit p o = .ok s0 →
      run step s0 ops = some s → desc.Blank → desc.n * s.chunkSize ≤ memFree s →
        contigAllocOk s (.leastLoaded threshold) = true → ChoosesNode s desc threshold := by
  intro h
  have hc := h hugeInsmod allOk _ _ [] (blank 1) 0 contigInit_huge rfl ⟨rfl, rfl⟩ (by decide) rfl
  have hbug : contigAllocLeastLoaded (initState hugeInsmod) (blank 1) 0 = .error .bug := rfl
  have hnone : ∀ d, ((initState hugeInsmod).inactiveChunks d).length < (blank 1).n := by
    decide
  rw [(hc.fails hnone).1] at hbug
  cases hbug

end Reachable

end EspDrivers.ContigAlloc
