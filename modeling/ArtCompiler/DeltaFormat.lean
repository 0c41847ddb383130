import ArtCompiler.SrcMap

/-!
# `DeltaFormat`: the delta encoding of a source map

`DeltaFormat(start, highest_pc)` prepares a source map for serialisation. It sorts the entries by
native offset (`SortByFrom`), drops the entries after the last one whose offset is below
`highest_pc` (`trimIndex`), and then, walking down from the end with an unsigned counter
(`deltaLoop`), replaces every entry but the first by its difference from the entry before it. The
first entry becomes its difference from `start`.

Both loops count down with a `size_t`. We model the counter as a `BitVec 64` with its wrapping
subtraction and element access as `SrcMap.get?`, whose `none` is an access past the end; the loops
terminate because the counter decreases whenever they go round.

The sorted entries below `highest_pc` form a prefix (`Partitioned`), so the trimming loop keeps
the first `max c 1` of them, `c` the number below the threshold (`trimIndex_spec`). The downward
loop only reads entries it has not yet rewritten, so it computes the differences of the kept
prefix (`deltaLoop_spec`). Together these give `deltaFormat_spec`, from which the results on the
prefix sums, the number of kept entries and the index bounds follow. Prefix summation from `start`
decodes the stream exactly when the `DCHECK` on the first offset holds
(`prefixSums_deltaFormat_eq_iff`). Conversely, `DeltaFormat` gives back every stream with
increasing offsets from the map it decodes to (`deltaFormat_decodeMap`).

`std::sort` leaves the entries of one offset in an unspecified order. That order decides the
stream whenever a pc below `highest_pc` is mapped to two lines (`deltaFormat_depends_on_tie_order`,
shown with two insertion sorts, `sortLineUp` and `sortLineDown`), and does not matter when no pc
is (`deltaFormat_sort_independent`).

The lines are `int32_t`, and C++ leaves an overflowing subtraction undefined where the model
wraps; with non-negative lines no subtraction of `DeltaFormat` overflows
(`deltaFormat_line_deltas_exact`).

The model is the release build: the `DCHECK` on the first offset is compiled out, and the call
goes on whatever `start` is. A debug build aborts there when `start.from_` exceeds the least offset
of the map, so a theorem that asserts a result for every `start` describes the release build,
and one that assumes `start.from_` at most every offset (`deltaFormat_prefixSums_recover`)
describes both.
-/

namespace Art

namespace SrcMapElem

/-- The difference `cur - prev` of two entries, field by field, both fields wrapping. -/
def diff (prev cur : SrcMapElem) : SrcMapElem :=
  ⟨cur.from_ - prev.from_, cur.to_ - prev.to_⟩

/-- The comparator of `SortByFrom`: `lhs.from_ < rhs.from_`, unsigned. -/
def fromLess (lhs rhs : SrcMapElem) : Bool :=
  decide (lhs.from_ < rhs.from_)

lemma fromLess_eq_false_iff (a b : SrcMapElem) : fromLess b a = false ↔ a.from_ ≤ b.from_ := by
  simp [fromLess]

lemma fromLess_total (a b : SrcMapElem) : fromLess b a = false ∨ fromLess a b = false := by
  simp only [fromLess_eq_false_iff, BitVec.le_def]
  omega

lemma fromLess_trans {a b c : SrcMapElem} (hab : fromLess b a = false)
    (hbc : fromLess c b = false) : fromLess c a = false := by
  simp only [fromLess_eq_false_iff, BitVec.le_def] at *
  omega

instance : IsTotal SrcMapElem fun a b => fromLess b a = false :=
  ⟨fromLess_total⟩

instance : IsTrans SrcMapElem fun a b => fromLess b a = false :=
  ⟨fun _ _ _ => fromLess_trans⟩

end SrcMapElem

namespace SrcMap

open SrcMapElem

/-! ## The model -/

/-- `SortByFrom()`: `std::sort` by native offset alone. -/
def sortByFrom (sort : StdSort SrcMapElem fromLess) (m : SrcMap) : SrcMap :=
  ⟨sort.sort m.elems, (sort.perm m.elems).length_eq ▸ m.size_lt⟩

/-- The trimming loop of `DeltaFormat` from the counter value `i`:
`for (; i > 0 ; i--) if ((*this)[i].from_ < highest_pc) break;`. It returns the final `i`. -/
def trimIndex (m : SrcMap) (highest_pc : BitVec 32) (i : BitVec 64) : Option (BitVec 64) :=
  if h : 0 < i then do
    let e ← m.get? i
    if e.from_ < highest_pc then pure i else trimIndex m highest_pc (i - 1)
  else pure i
termination_by i.toNat
decreasing_by bv_omega

/-- The body of the delta loop at `i`: `(*this)[i].from_ -= (*this)[i-1].from_;` and
`(*this)[i].to_ -= (*this)[i-1].to_;`. The first assignment changes only `from_` of entry `i`, so
the second reads what the first did. -/
def deltaStep (m : SrcMap) (i : BitVec 64) : Option SrcMap := do
  let cur ← m.get? i
  let prev ← m.get? (i - 1)
  pure (m.set i (diff prev cur))

/-- The delta loop `for (i = size(); --i >= 1; )`, from the counter value after a decrement: while
`i >= 1` run the body at `i`, then decrement `i` and test again. -/
def deltaLoop (m : SrcMap) (i : BitVec 64) : Option SrcMap :=
  if h : 1 ≤ i then do
    let m ← deltaStep m i
    deltaLoop m (i - 1)
  else pure m
termination_by i.toNat
decreasing_by bv_omega

/-- `DeltaFormat(start, highest_pc)` as a release build runs it. `none` is an element access past
the end. The `DCHECK` that the first offset is at least `start.from_` is compiled out of release
builds, so it is not a branch here; a debug build aborts at it when `start.from_` exceeds the least
offset of the map. `start` is taken by value: the source takes a reference and reads it after the
map is sorted and rewritten, which differs only for a `start` that is itself an entry of the map,
and no caller under the sources passes one. -/
def deltaFormat (sort : StdSort SrcMapElem fromLess) (m : SrcMap) (start : SrcMapElem)
    (highest_pc : BitVec 32) : Option SrcMap :=
  if m.empty then pure m
  else do
    let m := m.sortByFrom sort
    let i ← trimIndex m highest_pc (m.size - 1)
    let m := m.resize (i + 1)
    let m ← deltaLoop m (m.size - 1)
    let first ← m.get? 0
    pure (m.set 0 (diff start first))

/-- The map of Scenario E of the specification, `[(30, 5), (10, 2), (20, 2)]`. -/
def scenarioE : SrcMap :=
  ⟨[⟨30, 5⟩, ⟨10, 2⟩, ⟨20, 2⟩], by decide⟩

/-! ## `SortByFrom` and the trimming loop -/

section Trim

variable (sort : StdSort SrcMapElem fromLess) (highest_pc : BitVec 32)

lemma sortByFrom_perm (m : SrcMap) : (m.sortByFrom sort).elems.Perm m.elems :=
  sort.perm m.elems

/-- `SortByFrom` leaves the offsets non-decreasing. -/
lemma sortByFrom_sorted (m : SrcMap) :
    (m.sortByFrom sort).elems.Sorted fun a b => a.from_ ≤ b.from_ :=
  (sort.sorted m.elems).imp (fromLess_eq_false_iff _ _).mp

/-- Two orders by offset of the same entries agree when no offset carries two different entries:
the order of ties can only exchange equal entries. -/
lemma eq_of_perm_of_sorted_from {l₁ l₂ : List SrcMapElem} (hp : l₁.Perm l₂)
    (h₁ : l₁.Sorted fun a b => a.from_ ≤ b.from_) (h₂ : l₂.Sorted fun a b => a.from_ ≤ b.from_)
    (hfun : ∀ a ∈ l₂, ∀ b ∈ l₂, a.from_ = b.from_ → a = b) : l₁ = l₂ := by
  haveI : IsAntisymm SrcMapElem fun a b => a.from_ < b.from_ ∨ a = b :=
    ⟨fun a b hab hba => by
      rcases hab with hab | rfl
      · rcases hba with hba | rfl
        · bv_omega
        · rfl
      · rfl⟩
  have hstrict : ∀ {l : List SrcMapElem}, (∀ a ∈ l, ∀ b ∈ l, a.from_ = b.from_ → a = b) →
      l.Sorted (fun a b => a.from_ ≤ b.from_) → l.Sorted fun a b => a.from_ < b.from_ ∨ a = b :=
    fun hf hs => hs.imp_of_mem fun {a b} ha hb hab =>
      if h : a.from_ = b.from_ then .inr (hf a ha b hb h) else .inl (by bv_omega)
  exact List.eq_of_perm_of_sorted hp
    (hstrict (fun a ha b hb => hfun a (hp.subset ha) b (hp.subset hb)) h₁) (hstrict hfun h₂)

/-- On entries sorted by offset, those below `highest_pc` come first. -/
lemma partitioned_below {v : List SrcMapElem} (hs : v.Sorted fun a b => a.from_ ≤ b.from_) :
    Partitioned (fun e => decide (e.from_ < highest_pc)) v :=
  hs.imp fun hab hb => by
    simp only [decide_eq_true_eq, BitVec.lt_def, BitVec.le_def] at hab hb ⊢
    omega

lemma trimIndex_of_not_pos (m : SrcMap) {i : BitVec 64} (h : ¬ 0 < i) :
    trimIndex m highest_pc i = some i := by
  rw [trimIndex, dif_neg h]
  rfl

lemma trimIndex_of_pos (m : SrcMap) {i : BitVec 64} (h : 0 < i) :
    trimIndex m highest_pc i = (m.get? i).bind fun e =>
      if e.from_ < highest_pc then some i else trimIndex m highest_pc (i - 1) := by
  rw [trimIndex, dif_pos h]
  rfl

/-- On entries sorted by offset, the trimming loop started at `i` stops at index `c - 1`, where
`c` is the number of entries below `highest_pc`, or at `0` when there is none; it is enough that
no entry after `i` is below `highest_pc`. -/
lemma trimIndex_spec (m : SrcMap) (hs : m.elems.Sorted fun a b => a.from_ ≤ b.from_)
    (n : Nat) (i : BitVec 64) (hi : i.toNat = n) (hn : n < m.elems.length)
    (hc : m.elems.countP (fun e => decide (e.from_ < highest_pc)) ≤ n + 1) :
    trimIndex m highest_pc i =
      some (BitVec.ofNat 64 (m.elems.countP (fun e => decide (e.from_ < highest_pc)) - 1)) := by
  induction n generalizing i with
  | zero =>
    rw [trimIndex_of_not_pos _ _ (by bv_omega)]
    congr 1
    bv_omega
  | succ k ih =>
    have hget : m.get? i = some m.elems[k + 1] := by simp [get?, hi, hn]
    have hiff := (partitioned_below highest_pc hs).getElem_iff_lt_countP (k + 1) hn
    rw [trimIndex_of_pos _ _ (by bv_omega), hget, Option.some_bind]
    split_ifs with hlt
    · have := hiff.mp (decide_eq_true hlt)
      congr 1
      bv_omega
    · have := mt hiff.mpr (by simpa using hlt)
      exact ih (i - 1) (by bv_omega) (by omega) (by omega)

end Trim

/-! ## The delta loop -/

/-- The differences the delta loop should leave: each entry minus the one before it, the first
entry minus `prev`. -/
def deltasFrom (prev : SrcMapElem) : List SrcMapElem → List SrcMapElem
  | [] => []
  | cur :: l => diff prev cur :: deltasFrom cur l

/-- The first entry kept, the others minus the entry before them. -/
def deltas : List SrcMapElem → List SrcMapElem
  | [] => []
  | a :: l => a :: deltasFrom a l

lemma deltasFrom_append_pair (prev p x : SrcMapElem) (l : List SrcMapElem) :
    deltasFrom prev (l ++ [p, x]) = deltasFrom prev (l ++ [p]) ++ [diff p x] := by
  induction l generalizing prev with
  | nil => rfl
  | cons a l ih => simp [deltasFrom, ih]

@[simp] lemma length_deltasFrom (prev : SrcMapElem) (l : List SrcMapElem) :
    (deltasFrom prev l).length = l.length := by
  induction l generalizing prev <;> simp [deltasFrom, *]

/-- Appending an entry appends its difference from the entry before it. -/
lemma deltas_append_pair (p x : SrcMapElem) (l : List SrcMapElem) :
    deltas (l ++ [p, x]) = deltas (l ++ [p]) ++ [diff p x] := by
  cases l with
  | nil => rfl
  | cons a l => simp [deltas, deltasFrom_append_pair]

/-- A delta stream determines the entries it was taken from. -/
lemma deltasFrom_injective (prev : SrcMapElem) {l₁ l₂ : List SrcMapElem}
    (h : deltasFrom prev l₁ = deltasFrom prev l₂) : l₁ = l₂ := by
  induction l₁ generalizing prev l₂ with
  | nil => cases l₂ <;> simp_all [deltasFrom]
  | cons x l₁ ih =>
    cases l₂ with
    | nil => simp [deltasFrom] at h
    | cons y l₂ =>
      simp only [deltasFrom, List.cons.injEq, diff, SrcMapElem.mk.injEq] at h
      obtain ⟨⟨hfrom, hto⟩, htail⟩ := h
      obtain rfl : x = y := SrcMapElem.ext (by bv_omega) (by bv_omega)
      rw [ih x htail]

lemma deltaStep_eq {m : SrcMap} {i : BitVec 64} {prev cur : SrcMapElem} (hcur : m.get? i = some cur)
    (hprev : m.get? (i - 1) = some prev) : deltaStep m i = some (m.set i (diff prev cur)) := by
  unfold deltaStep
  rw [hcur, hprev]
  rfl

lemma deltaLoop_of_lt_one (m : SrcMap) {i : BitVec 64} (h : ¬ 1 ≤ i) : deltaLoop m i = some m := by
  rw [deltaLoop, dif_neg h]
  rfl

lemma deltaLoop_of_one_le (m : SrcMap) {i : BitVec 64} (h : 1 ≤ i) :
    deltaLoop m i = (deltaStep m i).bind fun m => deltaLoop m (i - 1) := by
  rw [deltaLoop, dif_pos h]
  rfl

/-- The delta loop started at `i` runs its body at `i`, `i - 1`, ..., `1` and at no other index:
the counter never wraps below zero. -/
lemma deltaLoop_eq_foldlM (m : SrcMap) (i : BitVec 64) :
    deltaLoop m i =
      (List.range i.toNat).reverse.foldlM (fun m k => deltaStep m (BitVec.ofNat 64 (k + 1))) m := by
  obtain ⟨n, h⟩ : ∃ n, i.toNat = n := ⟨_, rfl⟩
  induction n generalizing m i with
  | zero => simp [h, deltaLoop_of_lt_one m (show ¬ 1 ≤ i by bv_omega)]
  | succ k ih =>
    have hi : BitVec.ofNat 64 (k + 1) = i := by bv_omega
    have hk : (i - 1).toNat = k := by bv_omega
    rw [deltaLoop_of_one_le m (by bv_omega), h, List.range_succ, List.reverse_append,
      List.reverse_singleton, List.singleton_append, List.foldlM_cons, hi, Option.bind_eq_bind]
    exact congrArg _ (funext fun m' => by rw [ih m' (i - 1) hk, hk])

/-- A list of at least two entries ends in a pair. -/
lemma exists_eq_append_pair {u : List SrcMapElem} (h : 2 ≤ u.length) :
    ∃ u₁ p x, u = u₁ ++ [p, x] := by
  rcases u.eq_nil_or_concat with rfl | ⟨L, x, rfl⟩
  · simp at h
  rcases L.eq_nil_or_concat with rfl | ⟨u₁, p, rfl⟩
  · simp at h
  exact ⟨u₁, p, x, by simp⟩

/-- Run on a map whose first `n + 1` entries are `u`, the delta loop from `i = n` replaces `u` by
its differences and leaves the entries after it alone: each body reads entries it has not yet
rewritten. -/
lemma deltaLoop_spec (n : Nat) (u t : List SrcMapElem) (m : SrcMap) (i : BitVec 64)
    (hm : m.elems = u ++ t) (hu : u.length = n + 1) (hi : i.toNat = n) :
    ∃ r, deltaLoop m i = some r ∧ r.elems = deltas u ++ t := by
  induction n generalizing u t m i with
  | zero =>
    obtain ⟨x, rfl⟩ : ∃ x, u = [x] := List.length_eq_one.mp hu
    exact ⟨m, deltaLoop_of_lt_one m (by bv_omega), hm⟩
  | succ k ih =>
    obtain ⟨u₁, p, x, rfl⟩ := exists_eq_append_pair (u := u) (by omega)
    have hlen : u₁.length = k := by simpa using hu
    have hcur : m.get? i = some x := by
      rw [get?, hm, hi, List.append_assoc, List.getElem?_append_right (by omega)]
      simp [hlen]
    have hprev : m.get? (i - 1) = some p := by
      rw [get?, hm, show (i - 1).toNat = k by bv_omega, List.append_assoc,
        List.getElem?_append_right (by omega)]
      simp [hlen]
    obtain ⟨r, hr, hre⟩ := ih (u₁ ++ [p]) (diff p x :: t) (m.set i (diff p x)) (i - 1)
      (by rw [elems_set, hm, hi, List.append_assoc, List.set_append_right _ _ (by omega)]; simp [hlen])
      (by simp [hlen]) (by bv_omega)
    refine ⟨r, ?_, ?_⟩
    · rw [deltaLoop_of_one_le m (by bv_omega), deltaStep_eq hcur hprev, Option.some_bind, hr]
    · rw [hre, deltas_append_pair]
      simp

/-! ## Two orders of ties

Insertion sort by offset and then by line meets the contract of `std::sort` for the comparator of
`SortByFrom`, with the lines ascending (`sortLineUp`) or descending (`sortLineDown`). The two put
the entries of one offset in opposite orders. -/

/-- Offset, then line, both unsigned, as one key. -/
def lineUpKey (e : SrcMapElem) : Nat :=
  e.from_.toNat * 2 ^ 32 + e.to_.toNat

/-- Offset, then line descending, as one key. -/
def lineDownKey (e : SrcMapElem) : Nat :=
  e.from_.toNat * 2 ^ 32 + (2 ^ 32 - 1 - e.to_.toNat)

/-- A key made of the offset and, below it, any part less than `2^32` orders entries by offset. -/
lemma fromLess_of_offset_key_le (t : SrcMapElem → Nat) (ht : ∀ e, t e < 2 ^ 32) (a b : SrcMapElem)
    (h : a.from_.toNat * 2 ^ 32 + t a ≤ b.from_.toNat * 2 ^ 32 + t b) : fromLess b a = false := by
  have := ht a
  have := ht b
  rw [fromLess_eq_false_iff, BitVec.le_def]
  omega

/-- Insertion sort by offset and then by line. -/
def sortLineUp : StdSort SrcMapElem fromLess :=
  StdSort.byKey fromLess lineUpKey (fromLess_of_offset_key_le _ fun e => e.to_.isLt)

/-- Insertion sort by offset and then by line, the lines descending. -/
def sortLineDown : StdSort SrcMapElem fromLess :=
  StdSort.byKey fromLess lineDownKey (fromLess_of_offset_key_le _ fun _ => by omega)

/-- One pc mapped to two lines, `[(10, 1), (10, 2)]`: the case the `TODO` of `DeltaFormat` asks
about. -/
def samePcTwoLines : SrcMap :=
  ⟨[⟨10, 1⟩, ⟨10, 2⟩], by decide⟩

/-! ## What `DeltaFormat` computes -/

section Spec

variable (sort : StdSort SrcMapElem fromLess) (highest_pc : BitVec 32)

/-- On a non-empty map, the trimming loop of `DeltaFormat` stops at `i = c - 1`, `c` the number of
entries below `highest_pc` (or `0` when there is none), with no overflow in `i + 1`; `resize(i + 1)`
then keeps the first `max c 1` entries by offset, and the delta loop starts from `c - 1`. -/
lemma trimmed_spec (m : SrcMap) (hm : m.elems ≠ []) :
    let s := m.sortByFrom sort
    let c := s.elems.countP fun e => decide (e.from_ < highest_pc)
    let t := s.resize (BitVec.ofNat 64 (c - 1) + 1)
    trimIndex s highest_pc (s.size - 1) = some (BitVec.ofNat 64 (c - 1)) ∧
      (BitVec.ofNat 64 (c - 1)).toNat = c - 1 ∧ c - 1 + 1 ≤ m.elems.length ∧
      t.elems = s.elems.take (c - 1 + 1) ∧ t.elems.length = c - 1 + 1 ∧
      (t.size - 1).toNat = c - 1 := by
  intro s c t
  have hlen : s.elems.length = m.elems.length := (sortByFrom_perm sort m).length_eq
  have hpos := List.length_pos.mpr hm
  have hc : c ≤ s.elems.length := List.countP_le_length _
  have := m.size_lt
  have hsize : (s.size - 1).toNat = m.elems.length - 1 := by
    have := toNat_size s
    bv_omega
  have hkeep : (BitVec.ofNat 64 (c - 1) + 1).toNat = c - 1 + 1 := by bv_omega
  have hres : t.elems = s.elems.take (c - 1 + 1) := by
    rw [elems_resize_of_le _ _ (by omega), hkeep]
  have hreslen : t.elems.length = c - 1 + 1 := by
    rw [hres, List.length_take]
    omega
  have htsize : (t.size - 1).toNat = c - 1 := by
    have := toNat_size t
    bv_omega
  exact ⟨trimIndex_spec highest_pc s (sortByFrom_sorted sort m) (m.elems.length - 1) _ hsize
    (by omega) (by omega), by bv_omega, by omega, hres, hreslen, htsize⟩

/-- On a non-empty map, `DeltaFormat` succeeds and leaves the differences, from `start` on, of the
first `max c 1` entries by offset, where `c` entries lie below `highest_pc`. -/
theorem deltaFormat_spec (m : SrcMap) (hm : m.elems ≠ []) (start : SrcMapElem) :
    ∃ r, deltaFormat sort m start highest_pc = some r ∧
      r.elems = deltasFrom start ((m.sortByFrom sort).elems.take
        ((m.sortByFrom sort).elems.countP (fun e => decide (e.from_ < highest_pc)) - 1 + 1)) := by
  obtain ⟨htrim, -, -, hres, hreslen, hsize⟩ := trimmed_spec sort highest_pc m hm
  obtain ⟨a, l, hw⟩ := List.exists_cons_of_length_eq_add_one hreslen
  obtain ⟨r, hr, hre⟩ := deltaLoop_spec _ _ [] _ _ (List.append_nil _).symm hreslen hsize
  have hfirst : r.get? 0 = some a := by
    rw [get?, hre, List.append_nil, hw]
    simp [deltas]
  refine ⟨r.set 0 (diff start a), ?_, ?_⟩
  · rw [deltaFormat, if_neg (by simp [empty, hm])]
    dsimp only
    rw [htrim, Option.bind_eq_bind, Option.some_bind, hr, Option.bind_eq_bind, Option.some_bind,
      hfirst]
    rfl
  · rw [elems_set, hre, List.append_nil, hw, ← hres, hw]
    simp [deltas, deltasFrom]

/-- When some entry lies below `highest_pc`, `DeltaFormat` leaves the differences, from `start`
on, of exactly the entries below `highest_pc`, in the order `SortByFrom` left them. -/
lemma deltaFormat_spec_of_below (m : SrcMap) (start : SrcMapElem)
    (hbelow : ∃ e ∈ m.elems, e.from_ < highest_pc) :
    ∃ r, deltaFormat sort m start highest_pc = some r ∧
      r.elems = deltasFrom start ((m.sortByFrom sort).elems.filter
        fun e => decide (e.from_ < highest_pc)) := by
  obtain ⟨e, he, hlt⟩ := hbelow
  obtain ⟨r, hr, hre⟩ := deltaFormat_spec sort highest_pc m (List.ne_nil_of_mem he) start
  have hpos : 0 < (m.sortByFrom sort).elems.countP fun e => decide (e.from_ < highest_pc) :=
    List.countP_pos_iff.mpr ⟨e, (sortByFrom_perm sort m).mem_iff.mpr he, by simpa using hlt⟩
  rw [Nat.sub_add_cancel hpos,
    (partitioned_below highest_pc (sortByFrom_sorted sort m)).take_countP] at hre
  exact ⟨r, hr, hre⟩

/-- Scenario E: the entry at `30 ≥ 25` goes, and the rest become `[(0, 0), (10, 0)]` from `(10, 2)`. -/
example : (deltaFormat (StdSort.insertion fromLess) scenarioE ⟨10, 2⟩ 25).map elems =
    some [⟨0, 0⟩, ⟨10, 0⟩] := by
  obtain ⟨r, hr, hre⟩ := deltaFormat_spec (StdSort.insertion fromLess) 25 scenarioE (by decide) ⟨10, 2⟩
  rw [hr, Option.map_some', hre]
  decide

/-- On a non-empty map, `DeltaFormat` keeps the first `max c 1` entries by offset, `c` the number
below `highest_pc`: the trimming loop never tests entry `0`. The result is returned for every
`start` in a release build; a debug build returns it when `start.from_` is at most every offset. -/
lemma length_deltaFormat (m : SrcMap) (hm : m.elems ≠ []) (start : SrcMapElem) :
    ∃ r, deltaFormat sort m start highest_pc = some r ∧
      r.elems.length = m.elems.countP (fun e => decide (e.from_ < highest_pc)) - 1 + 1 := by
  obtain ⟨r, hr, hre⟩ := deltaFormat_spec sort highest_pc m hm start
  have hle := (trimmed_spec sort highest_pc m hm).2.2.1
  have hcount := (sortByFrom_perm sort m).countP_eq fun e => decide (e.from_ < highest_pc)
  rw [hcount] at hle
  refine ⟨r, hr, ?_⟩
  rw [hre, length_deltasFrom, List.length_take, (sortByFrom_perm sort m).length_eq, hcount]
  omega

theorem length_deltaFormat_scenarioE :
    scenarioE.elems ≠ [] ∧
      ∃ r, deltaFormat (StdSort.insertion fromLess) scenarioE ⟨10, 2⟩ 25 = some r ∧
        r.elems.length = scenarioE.elems.countP (fun e => decide (e.from_ < 25)) - 1 + 1 :=
  ⟨by decide, length_deltaFormat _ _ scenarioE (by decide) _⟩

/-- Whenever two different entries share an offset below `highest_pc`, the order of ties decides
the stream: after `sortLineUp` and after `sortLineDown`, both meeting the contract of `std::sort`,
`DeltaFormat` writes different streams. With `deltaFormat_sort_independent`, a pc below
`highest_pc` mapped to two lines is what makes the stream depend on the sort. -/
theorem deltaFormat_depends_on_tie_order (m : SrcMap) (start : SrcMapElem) {a b : SrcMapElem}
    (ha : a ∈ m.elems) (hb : b ∈ m.elems) (hne : a ≠ b) (hfrom : a.from_ = b.from_)
    (hbelow : a.from_ < highest_pc) :
    deltaFormat sortLineUp m start highest_pc ≠ deltaFormat sortLineDown m start highest_pc := by
  obtain ⟨r₁, hr₁, hre₁⟩ := deltaFormat_spec_of_below sortLineUp highest_pc m start ⟨a, ha, hbelow⟩
  obtain ⟨r₂, hr₂, hre₂⟩ := deltaFormat_spec_of_below sortLineDown highest_pc m start ⟨a, ha, hbelow⟩
  rw [hr₁, hr₂, Ne, Option.some_inj]
  intro h
  have hkept := deltasFrom_injective start (hre₁.symm.trans ((congrArg elems h).trans hre₂))
  set kept := (m.sortByFrom sortLineUp).elems.filter fun e => decide (e.from_ < highest_pc)
  have hmem : ∀ e ∈ m.elems, e.from_ < highest_pc → e ∈ kept :=
    fun e he hlt => List.mem_filter.mpr ⟨(sortByFrom_perm _ m).mem_iff.mpr he, decide_eq_true hlt⟩
  have hup : kept.Pairwise fun x y => lineUpKey x ≤ lineUpKey y :=
    (sorted_insertionSort_key lineUpKey m.elems).sublist (List.filter_sublist _)
  have hdown : kept.Pairwise fun x y => lineDownKey x ≤ lineDownKey y :=
    hkept ▸ (sorted_insertionSort_key lineDownKey m.elems).sublist (List.filter_sublist _)
  have hab := ((hup.and hdown).imp Or.inl).forall (fun _ _ h => h.symm) (hmem a ha hbelow)
    (hmem b hb (hfrom ▸ hbelow)) hne
  have hto : a.to_.toNat ≠ b.to_.toNat := fun h => hne (SrcMapElem.ext hfrom (BitVec.eq_of_toNat_eq h))
  have := congrArg BitVec.toNat hfrom
  simp only [lineUpKey, lineDownKey] at hab
  omega

theorem deltaFormat_depends_on_tie_order_samePcTwoLines :
    (⟨10, 1⟩ : SrcMapElem) ∈ samePcTwoLines.elems ∧ (⟨10, 2⟩ : SrcMapElem) ∈ samePcTwoLines.elems ∧
      (⟨10, 1⟩ : SrcMapElem) ≠ ⟨10, 2⟩ ∧
      (⟨10, 1⟩ : SrcMapElem).from_ = (⟨10, 2⟩ : SrcMapElem).from_ ∧
      (⟨10, 1⟩ : SrcMapElem).from_ < 100 ∧
      deltaFormat sortLineUp samePcTwoLines ⟨0, 0⟩ 100 ≠
        deltaFormat sortLineDown samePcTwoLines ⟨0, 0⟩ 100 :=
  ⟨by decide, by decide, by decide, rfl, by decide,
    @deltaFormat_depends_on_tie_order 100 samePcTwoLines ⟨0, 0⟩ ⟨10, 1⟩ ⟨10, 2⟩ (by decide)
      (by decide) (by decide) rfl (by decide)⟩

/-- The order of ties is the only freedom: when no native offset is mapped to two different
lines, every routine meeting the contract of `std::sort` gives the same result. -/
theorem deltaFormat_sort_independent (sort₁ sort₂ : StdSort SrcMapElem fromLess) (m : SrcMap)
    (start : SrcMapElem) (hfun : ∀ a ∈ m.elems, ∀ b ∈ m.elems, a.from_ = b.from_ → a = b) :
    deltaFormat sort₁ m start highest_pc = deltaFormat sort₂ m start highest_pc := by
  have hperm := sortByFrom_perm sort₂ m
  have h : m.sortByFrom sort₁ = m.sortByFrom sort₂ := SrcMap.ext <|
    eq_of_perm_of_sorted_from ((sortByFrom_perm sort₁ m).trans hperm.symm)
      (sortByFrom_sorted sort₁ m) (sortByFrom_sorted sort₂ m)
      fun a ha b hb => hfun a (hperm.subset ha) b (hperm.subset hb)
  simp only [deltaFormat, h]

theorem deltaFormat_sort_independent_scenarioE :
    (∀ a ∈ scenarioE.elems, ∀ b ∈ scenarioE.elems, a.from_ = b.from_ → a = b) ∧
      deltaFormat (StdSort.insertion fromLess) scenarioE ⟨10, 2⟩ 25 =
        deltaFormat (StdSort.insertionReversed fromLess) scenarioE ⟨10, 2⟩ 25 :=
  ⟨by decide, deltaFormat_sort_independent 25 _ _ scenarioE ⟨10, 2⟩ (by decide)⟩

/-- When no entry lies below `highest_pc`, `DeltaFormat` still keeps one: `[(30, 5)]` with
`start = (10, 2)` and `highest_pc = 25` becomes `[(20, 3)]`, which decodes to offset `30 ≥ 25`. -/
theorem deltaFormat_keeps_entry_past_highest_pc (sort : StdSort SrcMapElem fromLess) :
    (deltaFormat sort ⟨[⟨30, 5⟩], by decide⟩ ⟨10, 2⟩ 25).map elems = some [⟨20, 3⟩] := by
  obtain ⟨r, hr, hre⟩ := deltaFormat_spec sort 25 ⟨[⟨30, 5⟩], by decide⟩ (by simp) ⟨10, 2⟩
  have hsort : (sortByFrom sort ⟨[⟨30, 5⟩], by decide⟩).elems = [⟨30, 5⟩] :=
    List.perm_singleton.mp (sortByFrom_perm sort _)
  rw [hr, Option.map_some', hre, hsort]
  decide

/-- On a non-empty map every element access of `DeltaFormat` is in range, whatever `start` and
`highest_pc`. The trimming loop stops at some `i ≤ size - 1`, so `resize(i + 1)` keeps a prefix of
between `1` and `size` entries; the countdown `--i >= 1` runs its body at exactly the indices
`size - 1`, ..., `1` of the trimmed map, never wrapping below zero; and the call returns, an access
past the end being `none` in the model (in a release build; a debug build returns only when
`start.from_` is at most every offset). Both loops terminate, their counter decreasing on every
round. -/
theorem deltaFormat_accesses_in_bounds (m : SrcMap) (hm : m.elems ≠ []) (start : SrcMapElem) :
    let s := m.sortByFrom sort
    ∃ i, trimIndex s highest_pc (s.size - 1) = some i ∧ i.toNat ≤ m.elems.length - 1 ∧
      let t := s.resize (i + 1)
      t.elems = s.elems.take (i.toNat + 1) ∧ 1 ≤ t.elems.length ∧
      t.elems.length ≤ m.elems.length ∧
      deltaLoop t (t.size - 1) = (List.range (t.elems.length - 1)).reverse.foldlM
        (fun m k => deltaStep m (BitVec.ofNat 64 (k + 1))) t ∧
      (deltaFormat sort m start highest_pc).isSome := by
  obtain ⟨htrim, hi, hle, hres, hreslen, hsize⟩ := trimmed_spec sort highest_pc m hm
  obtain ⟨r, hr, -⟩ := deltaFormat_spec sort highest_pc m hm start
  refine ⟨_, htrim, by omega, by rw [hres, hi], by omega, by omega, ?_, by simp [hr]⟩
  rw [deltaLoop_eq_foldlM, hsize, hreslen, Nat.add_sub_cancel]

theorem deltaFormat_accesses_in_bounds_scenarioE :
    scenarioE.elems ≠ [] ∧
      let s := scenarioE.sortByFrom (StdSort.insertion fromLess)
      ∃ i, trimIndex s 25 (s.size - 1) = some i ∧ i.toNat ≤ scenarioE.elems.length - 1 ∧
        let t := s.resize (i + 1)
        t.elems = s.elems.take (i.toNat + 1) ∧ 1 ≤ t.elems.length ∧
        t.elems.length ≤ scenarioE.elems.length ∧
        deltaLoop t (t.size - 1) = (List.range (t.elems.length - 1)).reverse.foldlM
          (fun m k => deltaStep m (BitVec.ofNat 64 (k + 1))) t ∧
        (deltaFormat (StdSort.insertion fromLess) scenarioE ⟨10, 2⟩ 25).isSome :=
  ⟨by decide, deltaFormat_accesses_in_bounds _ _ scenarioE (by decide) ⟨10, 2⟩⟩

/-! ## Decoding the delta stream -/

/-- The decoder of a delta stream: prefix sums from `acc`, the offsets added over `ℕ` and the
lines in 32-bit two's complement. -/
def prefixSums (acc : Nat × BitVec 32) : List SrcMapElem → List (Nat × BitVec 32)
  | [] => []
  | d :: l => (acc.1 + d.from_.toNat, acc.2 + d.to_) ::
      prefixSums (acc.1 + d.from_.toNat, acc.2 + d.to_) l

/-- Prefix sums undo the differences of entries whose offsets do not decrease: no offset
difference wraps. -/
lemma prefixSums_deltasFrom (prev : SrcMapElem) (w : List SrcMapElem)
    (hs : (prev :: w).Sorted fun a b => a.from_ ≤ b.from_) :
    prefixSums (prev.from_.toNat, prev.to_) (deltasFrom prev w) =
      w.map fun e => (e.from_.toNat, e.to_) := by
  induction w generalizing prev with
  | nil => rfl
  | cons a l ih =>
    have hpa : prev.from_ ≤ a.from_ := List.rel_of_sorted_cons hs a (List.mem_cons_self a l)
    have hfrom : prev.from_.toNat + (a.from_ - prev.from_).toNat = a.from_.toNat := by bv_omega
    have hto : prev.to_ + (a.to_ - prev.to_) = a.to_ := by bv_omega
    simp only [deltasFrom, prefixSums, diff, hfrom, hto, List.map_cons, ih a hs.of_cons]

/-- Under the `DCHECK`, `start` followed by the entries below `highest_pc` is sorted by offset. -/
lemma sorted_start_below (m : SrcMap) (start : SrcMapElem)
    (hstart : ∀ e ∈ m.elems, start.from_ ≤ e.from_) :
    (start :: (m.sortByFrom sort).elems.filter fun e => decide (e.from_ < highest_pc)).Sorted
      fun a b => a.from_ ≤ b.from_ :=
  List.sorted_cons.mpr ⟨fun b hb =>
    hstart b ((sortByFrom_perm sort m).mem_iff.mp (List.mem_of_mem_filter hb)),
    (sortByFrom_sorted sort m).sublist (List.filter_sublist _)⟩

/-- The first entry below `highest_pc` after `SortByFrom` has the least offset of the map. -/
lemma head_below_le (m : SrcMap) {a : SrcMapElem} {w : List SrcMapElem}
    (hw : (m.sortByFrom sort).elems.filter (fun e => decide (e.from_ < highest_pc)) = a :: w)
    {e : SrcMapElem} (he : e ∈ m.elems) : a.from_ ≤ e.from_ := by
  have hsw : (a :: w).Sorted fun a b => a.from_ ≤ b.from_ :=
    hw ▸ (sortByFrom_sorted sort m).sublist (List.filter_sublist _)
  have hmem : a ∈ (m.sortByFrom sort).elems.filter (fun e => decide (e.from_ < highest_pc)) :=
    hw ▸ List.mem_cons_self a w
  have ha : a.from_ < highest_pc := of_decide_eq_true (List.mem_filter.mp hmem).2
  by_cases heb : e.from_ < highest_pc
  · have hew : e ∈ a :: w :=
      hw ▸ List.mem_filter.mpr ⟨(sortByFrom_perm sort m).mem_iff.mpr he, by simpa using heb⟩
    rcases List.mem_cons.mp hew with rfl | hew
    · exact BitVec.le_refl _
    · exact List.rel_of_sorted_cons hsw e hew
  · bv_omega

/-- When some entry lies below `highest_pc` and `start.from_` is at most every offset,
`DeltaFormat` followed by prefix summation from `start` gives back exactly the entries below
`highest_pc`, in non-decreasing order of offset: no offset difference wraps, and no entry is lost
or repeated, whatever order `std::sort` leaves ties in. -/
theorem deltaFormat_prefixSums_recover (m : SrcMap) (start : SrcMapElem)
    (hstart : ∀ e ∈ m.elems, start.from_ ≤ e.from_)
    (hbelow : ∃ e ∈ m.elems, e.from_ < highest_pc) :
    ∃ r, deltaFormat sort m start highest_pc = some r ∧
      (prefixSums (start.from_.toNat, start.to_) r.elems).Sorted (fun a b => a.1 ≤ b.1) ∧
      (prefixSums (start.from_.toNat, start.to_) r.elems).Perm
        ((m.elems.filter fun e => decide (e.from_ < highest_pc)).map
          fun e => (e.from_.toNat, e.to_)) := by
  obtain ⟨r, hr, hre⟩ := deltaFormat_spec_of_below sort highest_pc m start hbelow
  have hsw := sorted_start_below sort highest_pc m start hstart
  refine ⟨r, hr, ?_⟩
  rw [hre, prefixSums_deltasFrom start _ hsw]
  exact ⟨List.pairwise_map.mpr hsw.of_cons, ((sortByFrom_perm sort m).filter _).map _⟩

theorem deltaFormat_prefixSums_recover_scenarioE :
    (∀ e ∈ scenarioE.elems, (⟨10, 2⟩ : SrcMapElem).from_ ≤ e.from_) ∧
      (∃ e ∈ scenarioE.elems, e.from_ < 25) ∧
      ∃ r, deltaFormat (StdSort.insertion fromLess) scenarioE ⟨10, 2⟩ 25 = some r ∧
        (prefixSums ((10 : BitVec 32).toNat, 2) r.elems).Sorted (fun a b => a.1 ≤ b.1) ∧
        (prefixSums ((10 : BitVec 32).toNat, 2) r.elems).Perm
          ((scenarioE.elems.filter fun e => decide (e.from_ < 25)).map
            fun e => (e.from_.toNat, e.to_)) :=
  ⟨by decide, by decide, deltaFormat_prefixSums_recover _ _ scenarioE ⟨10, 2⟩ (by decide) (by decide)⟩

/-- The `DCHECK` of `DeltaFormat` is exactly what decoding needs. When some entry lies below
`highest_pc`, prefix summation from `start` gives back the entries below `highest_pc`, in the order
`SortByFrom` left them, if and only if `start.from_` is at most every offset; otherwise the first
offset difference wraps modulo `2^32`. The result in the second case is a release build's; a debug
build aborts at the `DCHECK` there instead. -/
theorem prefixSums_deltaFormat_eq_iff (m : SrcMap) (start : SrcMapElem)
    (hbelow : ∃ e ∈ m.elems, e.from_ < highest_pc) :
    ∃ r, deltaFormat sort m start highest_pc = some r ∧
      (prefixSums (start.from_.toNat, start.to_) r.elems =
          ((m.sortByFrom sort).elems.filter fun e => decide (e.from_ < highest_pc)).map
            (fun e => (e.from_.toNat, e.to_)) ↔
        ∀ e ∈ m.elems, start.from_ ≤ e.from_) := by
  obtain ⟨r, hr, hre⟩ := deltaFormat_spec_of_below sort highest_pc m start hbelow
  obtain ⟨e₀, he₀, hlt₀⟩ := hbelow
  have hne : (m.sortByFrom sort).elems.filter (fun e => decide (e.from_ < highest_pc)) ≠ [] :=
    List.ne_nil_of_mem (List.mem_filter.mpr
      ⟨(sortByFrom_perm sort m).mem_iff.mpr he₀, decide_eq_true hlt₀⟩)
  refine ⟨r, hr, ⟨fun h e he => ?_, fun hstart => ?_⟩⟩
  · obtain ⟨a, w, hw⟩ := List.exists_cons_of_ne_nil hne
    rw [hre, hw] at h
    simp only [deltasFrom, prefixSums, diff, List.map_cons, List.cons.injEq, Prod.mk.injEq] at h
    have hsa : start.from_ ≤ a.from_ := by bv_omega
    exact BitVec.le_trans hsa (head_below_le sort highest_pc m hw he)
  · rw [hre, prefixSums_deltasFrom start _ (sorted_start_below sort highest_pc m start hstart)]

theorem prefixSums_deltaFormat_eq_iff_scenarioE :
    (∃ e ∈ scenarioE.elems, e.from_ < 25) ∧
      ∃ r, deltaFormat (StdSort.insertion fromLess) scenarioE ⟨10, 2⟩ 25 = some r ∧
        (prefixSums ((10 : BitVec 32).toNat, 2) r.elems =
            ((scenarioE.sortByFrom (StdSort.insertion fromLess)).elems.filter
              fun e => decide (e.from_ < 25)).map (fun e => (e.from_.toNat, e.to_)) ↔
          ∀ e ∈ scenarioE.elems, (⟨10, 2⟩ : SrcMapElem).from_ ≤ e.from_) :=
  ⟨by decide, prefixSums_deltaFormat_eq_iff _ _ scenarioE ⟨10, 2⟩ (by decide)⟩

/-! ## Encoding a decoded stream

The other direction of the round trip. When the offset deltas of a stream after the first are
positive and its last offset stays below `highest_pc`, the decoded offsets increase strictly and
fit in 32 bits, so every `std::sort` leaves the decoded map in place, the trimming loop keeps all
of it, and each difference undoes one addition of the decoder. -/

@[simp] lemma length_prefixSums (acc : Nat × BitVec 32) (l : List SrcMapElem) :
    (prefixSums acc l).length = l.length := by
  induction l generalizing acc <;> simp [prefixSums, *]

/-- The map a decoder reads off the delta stream `d` from `start`: the prefix sums, with the
offsets taken back to 32 bits. -/
def decodeMap (start : SrcMapElem) (d : SrcMap) : SrcMap :=
  ⟨(prefixSums (start.from_.toNat, start.to_) d.elems).map fun p => ⟨BitVec.ofNat 32 p.1, p.2⟩, by
    rw [List.length_map, length_prefixSums]
    exact d.size_lt⟩

/-- The delta stream of Scenario E from `(10, 2)`, `[(0, 0), (10, 0)]`. -/
def scenarioEStream : SrcMap :=
  ⟨[⟨0, 0⟩, ⟨10, 0⟩], by decide⟩

/-- Every decoded offset lies between the accumulator and the accumulator plus all the offset
deltas. -/
lemma mem_prefixSums_bounds {acc : Nat × BitVec 32} {l : List SrcMapElem} {p : Nat × BitVec 32}
    (hp : p ∈ prefixSums acc l) :
    acc.1 ≤ p.1 ∧ p.1 ≤ acc.1 + (l.map fun x => x.from_.toNat).sum := by
  induction l generalizing acc with
  | nil => simp [prefixSums] at hp
  | cons x l ih =>
    rcases List.mem_cons.mp hp with rfl | hp
    · simp
    · have := ih hp
      dsimp only at this
      simp only [List.map_cons, List.sum_cons]
      omega

/-- With positive offset deltas, every decoded offset is above the accumulator. -/
lemma lt_of_mem_prefixSums {acc : Nat × BitVec 32} {l : List SrcMapElem} {p : Nat × BitVec 32}
    (hl : ∀ x ∈ l, 0 < x.from_.toNat) (hp : p ∈ prefixSums acc l) : acc.1 < p.1 := by
  induction l generalizing acc with
  | nil => simp [prefixSums] at hp
  | cons x l ih =>
    have hx := hl x (List.mem_cons_self x l)
    rcases List.mem_cons.mp hp with rfl | hp
    · dsimp only
      omega
    · have := ih (fun y hy => hl y (List.mem_cons_of_mem x hy)) hp
      dsimp only at this
      omega

/-- With positive offset deltas after the first, the decoded offsets increase strictly. -/
lemma prefixSums_sorted_lt (acc : Nat × BitVec 32) (l : List SrcMapElem)
    (hl : ∀ x ∈ l.tail, 0 < x.from_.toNat) : (prefixSums acc l).Sorted fun p q => p.1 < q.1 := by
  induction l generalizing acc with
  | nil => exact List.sorted_nil
  | cons x l ih =>
    exact List.sorted_cons.mpr ⟨fun q hq => lt_of_mem_prefixSums hl hq,
      ih _ fun y hy => hl y (List.mem_of_mem_tail hy)⟩

/-- Taking differences undoes the decoder, whatever the wrapping: each difference cancels one
addition. -/
lemma deltasFrom_prefixSums (acc : Nat × BitVec 32) (prev : SrcMapElem) (l : List SrcMapElem)
    (hfrom : BitVec.ofNat 32 acc.1 = prev.from_) (hto : acc.2 = prev.to_) :
    deltasFrom prev ((prefixSums acc l).map fun p => ⟨BitVec.ofNat 32 p.1, p.2⟩) = l := by
  induction l generalizing acc prev with
  | nil => rfl
  | cons x l ih =>
    have hx : diff prev ⟨BitVec.ofNat 32 (acc.1 + x.from_.toNat), acc.2 + x.to_⟩ = x :=
      SrcMapElem.ext (by simp only [diff, ← hfrom]; bv_omega) (by simp only [diff, hto]; bv_omega)
    simp only [prefixSums, List.map_cons, deltasFrom, hx]
    exact congrArg (x :: ·) (ih _ _ rfl rfl)

/-- Every `std::sort` leaves entries whose offsets increase strictly in place. -/
lemma sort_eq_self_of_sorted_lt {w : List SrcMapElem} (hw : w.Sorted fun a b => a.from_ < b.from_) :
    sort.sort w = w := by
  have hne : w.Pairwise fun a b => a.from_ ≠ b.from_ := hw.imp fun h => by bv_omega
  exact eq_of_perm_of_sorted_from (sort.perm w) ((sort.sorted w).imp (fromLess_eq_false_iff _ _).mp)
    (hw.imp fun h => by bv_omega) fun a ha b hb hab =>
      by_contra fun h => hne.forall (fun _ _ h => Ne.symm h) ha hb h hab

/-- Decoding then encoding is the identity on well-formed streams. When the offset deltas after
the first are positive and the last decoded offset lies below `highest_pc`, `DeltaFormat` run on
the map that prefix summation from `start` reads off the stream `d` gives `d` back, whatever order
`std::sort` would leave ties in. -/
theorem deltaFormat_decodeMap (d : SrcMap) (start : SrcMapElem)
    (hinc : ∀ x ∈ d.elems.tail, 0 < x.from_.toNat)
    (hfit : start.from_.toNat + (d.elems.map fun x => x.from_.toNat).sum < highest_pc.toNat) :
    deltaFormat sort (decodeMap start d) start highest_pc = some d := by
  have hsmall : ∀ p ∈ prefixSums (start.from_.toNat, start.to_) d.elems, p.1 < highest_pc.toNat :=
    fun p hp => by
      have := (mem_prefixSums_bounds hp).2
      dsimp only at this
      omega
  have hsorted : (decodeMap start d).elems.Sorted fun a b => a.from_ < b.from_ :=
    List.pairwise_map.mpr ((prefixSums_sorted_lt _ _ hinc).imp_of_mem fun hp hq hpq => by
      have := hsmall _ hp
      have := hsmall _ hq
      bv_omega)
  have hall : ∀ e ∈ (decodeMap start d).elems, decide (e.from_ < highest_pc) = true := by
    intro e he
    obtain ⟨p, hp, rfl⟩ := List.mem_map.mp he
    have := hsmall p hp
    simp only [decide_eq_true_eq]
    bv_omega
  have hdec : deltasFrom start (decodeMap start d).elems = d.elems :=
    deltasFrom_prefixSums _ start d.elems (by simp) rfl
  by_cases hd : (decodeMap start d).elems = []
  · rw [deltaFormat, if_pos (by simp [empty, hd])]
    exact congrArg some (SrcMap.ext (by rw [← hdec, hd]; rfl))
  · obtain ⟨r, hr, hre⟩ := deltaFormat_spec sort highest_pc (decodeMap start d) hd start
    have hs : (sortByFrom sort (decodeMap start d)).elems = (decodeMap start d).elems :=
      sort_eq_self_of_sorted_lt sort hsorted
    rw [hs, List.countP_eq_length.mpr hall, Nat.sub_add_cancel (List.length_pos.mpr hd),
      List.take_length, hdec] at hre
    exact hr.trans (congrArg some (SrcMap.ext hre))

theorem deltaFormat_decodeMap_scenarioE :
    (∀ x ∈ scenarioEStream.elems.tail, 0 < x.from_.toNat) ∧
      (10 : BitVec 32).toNat + (scenarioEStream.elems.map fun x => x.from_.toNat).sum <
        (25 : BitVec 32).toNat ∧
      deltaFormat (StdSort.insertion fromLess) (decodeMap ⟨10, 2⟩ scenarioEStream) ⟨10, 2⟩ 25 =
        some scenarioEStream :=
  ⟨by decide, by decide,
    deltaFormat_decodeMap _ _ scenarioEStream ⟨10, 2⟩ (by decide) (by decide)⟩

/-! ## Line differences without overflow

`to_` is an `int32_t`, so `(*this)[i].to_ -= (*this)[i-1].to_` has undefined behaviour when the
difference does not fit in 32 bits; the model's wrapping subtraction is faithful only when it
does. With non-negative lines it always does. -/

/-- A subtraction of two non-negative `int32_t` values does not overflow. -/
lemma toInt_sub_of_nonneg {a b : BitVec 32} (ha : 0 ≤ a.toInt) (hb : 0 ≤ b.toInt) :
    (a - b).toInt = a.toInt - b.toInt := by
  have := a.isLt
  have := b.isLt
  simp only [BitVec.toInt_eq_toNat_cond, BitVec.toNat_sub] at *
  split_ifs at * <;> omega

/-- With non-negative lines, every line of `deltasFrom prev l` is the exact difference of two
consecutive lines of `prev :: l`. -/
lemma toInt_deltasFrom (prev : SrcMapElem) (l : List SrcMapElem) (hprev : 0 ≤ prev.to_.toInt)
    (hl : ∀ e ∈ l, 0 ≤ e.to_.toInt) :
    (deltasFrom prev l).map (fun d => d.to_.toInt) =
      List.zipWith (fun p c => c.to_.toInt - p.to_.toInt) (prev :: l) l := by
  induction l generalizing prev with
  | nil => rfl
  | cons a l ih =>
    have ha := hl a (List.mem_cons_self a l)
    simp only [deltasFrom, diff, List.map_cons, List.zipWith_cons_cons, toInt_sub_of_nonneg ha hprev,
      ih a ha fun e he => hl e (List.mem_cons_of_mem a he)]

/-- When `start` and every entry have non-negative lines, no line subtraction of `DeltaFormat`
overflows `int32_t`: the line of every delta it writes is the exact difference, over `ℤ`, of the
lines of two consecutive kept entries, the first taken from `start`. The result is returned for
every `start` in a release build, and in a debug build when `start.from_` is at most every
offset. -/
theorem deltaFormat_line_deltas_exact (m : SrcMap) (hm : m.elems ≠ []) (start : SrcMapElem)
    (hstart : 0 ≤ start.to_.toInt) (hlines : ∀ e ∈ m.elems, 0 ≤ e.to_.toInt) :
    let kept := (m.sortByFrom sort).elems.take
      ((m.sortByFrom sort).elems.countP (fun e => decide (e.from_ < highest_pc)) - 1 + 1)
    ∃ r, deltaFormat sort m start highest_pc = some r ∧
      r.elems.map (fun d => d.to_.toInt) =
        List.zipWith (fun prev cur => cur.to_.toInt - prev.to_.toInt) (start :: kept) kept := by
  intro kept
  obtain ⟨r, hr, hre⟩ := deltaFormat_spec sort highest_pc m hm start
  refine ⟨r, hr, ?_⟩
  rw [hre]
  exact toInt_deltasFrom start kept hstart fun e he =>
    hlines e ((sortByFrom_perm sort m).mem_iff.mp (List.mem_of_mem_take he))

theorem deltaFormat_line_deltas_exact_scenarioE :
    scenarioE.elems ≠ [] ∧ 0 ≤ (2 : BitVec 32).toInt ∧ (∀ e ∈ scenarioE.elems, 0 ≤ e.to_.toInt) ∧
      let kept := (scenarioE.sortByFrom (StdSort.insertion fromLess)).elems.take
        ((scenarioE.sortByFrom (StdSort.insertion fromLess)).elems.countP
          (fun e => decide (e.from_ < 25)) - 1 + 1)
      ∃ r, deltaFormat (StdSort.insertion fromLess) scenarioE ⟨10, 2⟩ 25 = some r ∧
        r.elems.map (fun d => d.to_.toInt) =
          List.zipWith (fun prev cur => cur.to_.toInt - prev.to_.toInt) (⟨10, 2⟩ :: kept) kept :=
  ⟨by decide, by decide, by decide,
    deltaFormat_line_deltas_exact _ _ scenarioE (by decide) ⟨10, 2⟩ (by decide) (by decide)⟩

end Spec

end SrcMap

end Art
