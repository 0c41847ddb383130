import ArtCompiler.SrcMapElem
import ArtCompiler.StdAlgorithm

/-!
# Source maps, `Arrange` and `FindByTo`

`SrcMap` (compiled_method.h) is a `std::vector<SrcMapElem>`. We model it as a list with fewer
than `2^64` entries, since `size()` is a `size_t`, and give it the vector operations the source
uses: `size`, `empty`, element access `get?` (`none` for an index past the end, where C++ has
undefined behaviour), `set` and `resize`.

`Arrange` sorts by `operator<` and removes repeats with `std::unique`. Whatever order of ties the
sort leaves, the result is the strictly increasing list of the distinct entries
(`arrange_sorted_lt`, `mem_arrange_iff`), so it depends only on the set of entries
(`arrange_eq_of_mem_iff`) and is idempotent. Insertion sort by `operator<` meets the contract of
the `std::sort` it calls (`StdSort.insertion SrcMapElem.lt`).

`FindByTo(to)` runs `std::lower_bound` with the probe `{0, to}`. Since `0` is the least offset, an
entry is below the probe exactly when its line is below `to` (`lt_probe`), so on an arranged map
the search returns the first entry whose line is at least `to` (`findByTo_arrange`). `to` is a
keyword of Lean, so the argument is called `line` here.
-/

namespace Art

/-- A `SrcMap`: a `std::vector<SrcMapElem>`, whose `size()` fits in a `size_t`. -/
@[ext]
structure SrcMap where
  elems : List SrcMapElem
  size_lt : elems.length < 2 ^ 64

namespace SrcMap

/-! ## Vector operations -/

/-- `size()`. -/
def size (m : SrcMap) : BitVec 64 :=
  BitVec.ofNat 64 m.elems.length

/-- `empty()`. -/
def empty (m : SrcMap) : Bool :=
  m.elems.isEmpty

/-- `(*this)[i]`, or `none` for an index past the end. -/
def get? (m : SrcMap) (i : BitVec 64) : Option SrcMapElem :=
  m.elems[i.toNat]?

/-- An assignment to `(*this)[i]`. -/
def set (m : SrcMap) (i : BitVec 64) (e : SrcMapElem) : SrcMap :=
  ⟨m.elems.set i.toNat e, by simpa using m.size_lt⟩

/-- `resize(n)`: drop the entries from `n` on, or append value-initialised ones up to `n`. -/
def resize (m : SrcMap) (n : BitVec 64) : SrcMap :=
  ⟨m.elems.take n.toNat ++ List.replicate (n.toNat - m.elems.length) ⟨0, 0⟩, by
    simp only [List.length_append, List.length_take, List.length_replicate]
    have := n.isLt
    omega⟩

@[simp] lemma toNat_size (m : SrcMap) : m.size.toNat = m.elems.length :=
  Nat.mod_eq_of_lt m.size_lt

@[simp] lemma elems_set (m : SrcMap) (i : BitVec 64) (e : SrcMapElem) :
    (m.set i e).elems = m.elems.set i.toNat e := rfl

/-- A `resize` that does not grow the vector keeps its first `n` entries. -/
lemma elems_resize_of_le (m : SrcMap) (n : BitVec 64) (h : n.toNat ≤ m.elems.length) :
    (m.resize n).elems = m.elems.take n.toNat := by
  simp [resize, Nat.sub_eq_zero_of_le h]

/-! ## `Arrange` -/

/-- `Arrange()`: `std::sort` by `operator<`, then `std::unique` by `operator==` and a `resize` to
the entries it kept (`shrink_to_fit` only releases capacity). An empty map is left alone. -/
def arrange (sort : StdSort SrcMapElem SrcMapElem.lt) (m : SrcMap) : SrcMap :=
  if m.empty then m
  else ⟨unique SrcMapElem.eq (sort.sort m.elems),
    ((unique_sublist _ _).length_le.trans (sort.perm m.elems).length_eq.le).trans_lt m.size_lt⟩

/-- A map out of order with a repeated entry, `[(20, 7), (4, 3), (20, 7), (0, 3)]`. -/
def unsortedTable : SrcMap :=
  ⟨[⟨20, 7⟩, ⟨4, 3⟩, ⟨20, 7⟩, ⟨0, 3⟩], by decide⟩

section Arrange

variable (sort : StdSort SrcMapElem SrcMapElem.lt)

/-- The `std::sort` of `Arrange` leaves the entries in non-decreasing order. -/
lemma sort_sorted_le (xs : List SrcMapElem) : (sort.sort xs).Sorted (· ≤ ·) :=
  (sort.sorted xs).imp fun h => not_lt.mp fun hlt => by
    rw [← SrcMapElem.lt_eq_true_iff] at hlt
    simp_all

lemma arrange_sorted_lt (m : SrcMap) : (m.arrange sort).elems.Sorted (· < ·) := by
  unfold arrange
  split
  · rename_i h
    simp_all [empty]
  · exact unique_sorted_lt SrcMapElem.eq_eq_true_iff _ (sort_sorted_le sort _)

lemma mem_arrange_iff (m : SrcMap) (e : SrcMapElem) : e ∈ (m.arrange sort).elems ↔ e ∈ m.elems := by
  unfold arrange
  split
  · rfl
  · exact (mem_unique_iff SrcMapElem.eq_eq_true_iff e _).trans (sort.perm m.elems).mem_iff

/-- Two strictly increasing lists with the same entries are equal. -/
lemma eq_of_sorted_lt_of_mem_iff {l₁ l₂ : List SrcMapElem} (h₁ : l₁.Sorted (· < ·))
    (h₂ : l₂.Sorted (· < ·)) (h : ∀ e, e ∈ l₁ ↔ e ∈ l₂) : l₁ = l₂ :=
  List.eq_of_perm_of_sorted ((List.perm_ext_iff_of_nodup h₁.nodup h₂.nodup).mpr h) h₁ h₂

/-- `Arrange` depends only on the set of entries, and not on the order `std::sort` leaves ties in. -/
lemma arrange_eq_of_mem_iff (sort' : StdSort SrcMapElem SrcMapElem.lt) {m m' : SrcMap}
    (h : ∀ e, e ∈ m'.elems ↔ e ∈ m.elems) : m'.arrange sort' = m.arrange sort :=
  SrcMap.ext (eq_of_sorted_lt_of_mem_iff (arrange_sorted_lt sort' m') (arrange_sorted_lt sort m)
    fun e => by rw [mem_arrange_iff, mem_arrange_iff, h])

/-- `Arrange` leaves the distinct entries of the map, each once, strictly increasing by line and
then by offset. It is idempotent, and any map with the same entries, in any order and with any
repeats, arranges to the same map. -/
theorem arrange_strictly_sorted_distinct (sort' : StdSort SrcMapElem SrcMapElem.lt) (m m' : SrcMap) :
    (m.arrange sort).elems.Sorted (fun a b => a.to_.toInt < b.to_.toInt ∨
      (a.to_ = b.to_ ∧ a.from_.toNat < b.from_.toNat)) ∧
    (∀ e, e ∈ (m.arrange sort).elems ↔ e ∈ m.elems) ∧
    (m.arrange sort).elems.Nodup ∧
    (m.arrange sort).arrange sort' = m.arrange sort ∧
    ((∀ e, e ∈ m'.elems ↔ e ∈ m.elems) → m'.arrange sort' = m.arrange sort) :=
  ⟨(arrange_sorted_lt sort m).imp fun h => (SrcMapElem.lt_iff_lex _ _).mp h,
    mem_arrange_iff sort m, (arrange_sorted_lt sort m).nodup,
    arrange_eq_of_mem_iff sort sort' (mem_arrange_iff sort m), arrange_eq_of_mem_iff sort sort'⟩

theorem arrange_strictly_sorted_distinct_unsortedTable :
    let sort := StdSort.insertion SrcMapElem.lt
    let sort' := StdSort.insertionReversed SrcMapElem.lt
    let m' : SrcMap := ⟨[⟨0, 3⟩, ⟨20, 7⟩, ⟨4, 3⟩], by decide⟩
    (unsortedTable.arrange sort).elems.Sorted (fun a b => a.to_.toInt < b.to_.toInt ∨
      (a.to_ = b.to_ ∧ a.from_.toNat < b.from_.toNat)) ∧
    (∀ e, e ∈ (unsortedTable.arrange sort).elems ↔ e ∈ unsortedTable.elems) ∧
    (unsortedTable.arrange sort).elems.Nodup ∧
    (unsortedTable.arrange sort).arrange sort' = unsortedTable.arrange sort ∧
    ((∀ e, e ∈ m'.elems ↔ e ∈ unsortedTable.elems) →
      m'.arrange sort' = unsortedTable.arrange sort) :=
  arrange_strictly_sorted_distinct _ _ unsortedTable _

/-- Insertion sort by `operator<` meets the contract of `std::sort`; `Arrange` then leaves
`[(0, 3), (4, 3), (20, 7)]`. -/
example : (unsortedTable.arrange (StdSort.insertion SrcMapElem.lt)).elems =
    [⟨0, 3⟩, ⟨4, 3⟩, ⟨20, 7⟩] := by
  decide

end Arrange

/-! ## `FindByTo` -/

/-- `FindByTo(to)`, its argument named `line` here: `std::lower_bound` by `operator<` for the probe
`{0, line}`, as an index; `end()` is the index `size()`. -/
def findByTo (m : SrcMap) (line : BitVec 32) : Nat :=
  lowerBound SrcMapElem.lt ⟨0, line⟩ m.elems

/-- An entry is below the probe `{0, line}` exactly when its line is below `line`: no offset is
below `0`. -/
lemma lt_probe (e : SrcMapElem) (line : BitVec 32) :
    e.lt ⟨0, line⟩ = decide (e.to_.toInt < line.toInt) := by
  rw [Bool.eq_iff_iff, SrcMapElem.lt_eq_true_iff, SrcMapElem.lt_iff_lex, decide_eq_true_iff]
  simp

/-- On a map sorted by `operator<`, `FindByTo(line)` is the index of the first entry whose line is
at least `line`. -/
lemma findByTo_eq_findIdx (m : SrcMap) (line : BitVec 32) (hs : m.elems.Sorted (· < ·)) :
    m.findByTo line = m.elems.findIdx fun e => decide (line.toInt ≤ e.to_.toInt) := by
  rw [findByTo, lowerBound_eq_findIdx]
  · simp only [lt_probe, ← decide_not, not_lt]
  · exact hs.imp fun hab hb => by
      simp only [SrcMapElem.lt_eq_true_iff] at hb ⊢
      exact hab.trans hb

/-- In a map sorted by `operator<`, every entry before `FindByTo(line)` has a line below `line`. -/
lemma findByTo_before (m : SrcMap) (line : BitVec 32) (hs : m.elems.Sorted (· < ·))
    (j : Nat) (hj : j < m.elems.length) (hji : j < m.findByTo line) :
    m.elems[j].to_.toInt < line.toInt := by
  rw [findByTo_eq_findIdx m line hs] at hji
  simpa using List.not_of_lt_findIdx hji

/-- In a map sorted by `operator<` with an entry `e` on line `line`, `FindByTo(line)` points at an
entry at or before `e` whose line is not below `line`. -/
lemma findByTo_le_of_mem (m : SrcMap) (line : BitVec 32) (hs : m.elems.Sorted (· < ·))
    {e : SrcMapElem} (he : e ∈ m.elems) (het : e.to_ = line) :
    ∃ h : m.findByTo line < m.elems.length,
      m.elems[m.findByTo line] ≤ e ∧ line.toInt ≤ m.elems[m.findByTo line].to_.toInt := by
  have hfind := findByTo_eq_findIdx m line hs
  have hlt : m.findByTo line < m.elems.length := by
    rw [hfind]
    exact List.findIdx_lt_length_of_exists ⟨e, he, by simp [het]⟩
  refine ⟨hlt, ?_, ?_⟩
  · obtain ⟨k, hk, rfl⟩ := List.getElem_of_mem he
    rcases lt_trichotomy k (m.findByTo line) with hki | hki | hki
    · exact absurd (findByTo_before m line hs k hk hki) (by rw [het]; exact lt_irrefl _)
    · simp only [hki, le_refl]
    · exact (List.pairwise_iff_getElem.mp hs _ _ hlt hk hki).le
  · have := List.findIdx_getElem (w := hfind ▸ hlt)
    simp only [hfind]
    exact of_decide_eq_true this

/-- After `Arrange`, `FindByTo(line)` returns the first entry whose line is at least `line`, or
`end()`; every entry before it has a smaller line, and when some entry has line `line` the one
returned has that line and the least offset among those. -/
theorem findByTo_arrange (sort : StdSort SrcMapElem SrcMapElem.lt) (m : SrcMap) (line : BitVec 32) :
    (m.arrange sort).findByTo line =
        (m.arrange sort).elems.findIdx (fun e => decide (line.toInt ≤ e.to_.toInt)) ∧
    (∀ (j : Nat) (hj : j < (m.arrange sort).elems.length), j < (m.arrange sort).findByTo line →
        (m.arrange sort).elems[j].to_.toInt < line.toInt) ∧
    ((∃ e ∈ m.elems, e.to_ = line) →
      ∃ h : (m.arrange sort).findByTo line < (m.arrange sort).elems.length,
        (m.arrange sort).elems[(m.arrange sort).findByTo line].to_ = line ∧
        ∀ e ∈ m.elems, e.to_ = line →
          (m.arrange sort).elems[(m.arrange sort).findByTo line].from_.toNat ≤ e.from_.toNat) := by
  have hs := arrange_sorted_lt sort m
  refine ⟨findByTo_eq_findIdx _ line hs, findByTo_before _ line hs, fun ⟨e₀, he₀, het₀⟩ => ?_⟩
  have found := fun {e} (he : e ∈ m.elems) (het : e.to_ = line) =>
    findByTo_le_of_mem _ line hs ((mem_arrange_iff sort m e).mpr he) het
  obtain ⟨hlt, hle₀, hge⟩ := found he₀ het₀
  refine ⟨hlt, ?_, fun e he het => ?_⟩
  · exact (SrcMapElem.to_eq_and_from_le_of_le hle₀ (by rw [het₀]; exact hge)).1.trans het₀
  · obtain ⟨_, hle, -⟩ := found he het
    exact (SrcMapElem.to_eq_and_from_le_of_le hle (by rw [het]; exact hge)).2

theorem findByTo_arrange_unsortedTable :
    let a := unsortedTable.arrange (StdSort.insertion SrcMapElem.lt)
    a.findByTo 3 = a.elems.findIdx (fun e => decide ((3 : BitVec 32).toInt ≤ e.to_.toInt)) ∧
    (∀ (j : Nat) (hj : j < a.elems.length), j < a.findByTo 3 →
        a.elems[j].to_.toInt < (3 : BitVec 32).toInt) ∧
    ((∃ e ∈ unsortedTable.elems, e.to_ = 3) →
      ∃ h : a.findByTo 3 < a.elems.length, a.elems[a.findByTo 3].to_ = 3 ∧
        ∀ e ∈ unsortedTable.elems, e.to_ = 3 →
          a.elems[a.findByTo 3].from_.toNat ≤ e.from_.toNat) :=
  findByTo_arrange _ unsortedTable 3

end SrcMap

end Art
