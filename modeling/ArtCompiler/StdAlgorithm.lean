import Mathlib

/-!
# The `<algorithm>` routines used by `SrcMap`

`SrcMap` calls three routines of the C++ standard library. They are not part of the repository,
so each is modelled from what the standard and libstdc++ make of it.

`std::sort` promises only a permutation of the range in which no element is less than one
before it; the order of equivalent elements is unspecified. `StdSort` bundles a sorting routine
with exactly that contract, and the models of the source take it as a parameter, so a theorem
about them holds for every order of ties a conforming `std::sort` may leave. Insertion sort
meets the contract (`StdSort.insertion`), and so does insertion sort by any finer key in `ℕ`
(`StdSort.byKey`), which fixes one order of the ties.

`std::unique` keeps the first element of each run of elements equal to the last one kept
(`unique`). On a list sorted by a partial order it leaves every element once, in strictly
increasing order (`unique_sorted_lt`, `mem_unique_iff`).

`std::lower_bound` is the halving search of libstdc++ (`lowerBound`). On a range partitioned by
`comp · value` it returns the index of the first element not less than `value`
(`lowerBound_eq_findIdx`). The same condition, `Partitioned`, lets the trimming loop of
`DeltaFormat` count the entries below a threshold.
-/

namespace Art

variable {α : Type}

/-! ## `std::sort` -/

/-- A routine with the contract of `std::sort(first, last, comp)`: the result is a permutation of
the range, and no element is `comp`-less than an element before it. -/
structure StdSort (α : Type) (comp : α → α → Bool) where
  sort : List α → List α
  perm : ∀ xs, (sort xs).Perm xs
  sorted : ∀ xs, (sort xs).Pairwise fun a b => comp b a = false

/-- Insertion sort meets the contract of `std::sort` for a comparator whose flipped negation is a
total preorder. -/
def StdSort.insertion (comp : α → α → Bool) [IsTotal α fun a b => comp b a = false]
    [IsTrans α fun a b => comp b a = false] : StdSort α comp where
  sort := List.insertionSort fun a b => comp b a = false
  perm := List.perm_insertionSort _
  sorted := List.sorted_insertionSort _

/-- Insertion sort of the reversed range meets the same contract, and leaves equivalent elements
in the opposite order. -/
def StdSort.insertionReversed (comp : α → α → Bool) [IsTotal α fun a b => comp b a = false]
    [IsTrans α fun a b => comp b a = false] : StdSort α comp where
  sort xs := List.insertionSort (fun a b => comp b a = false) xs.reverse
  perm xs := (List.perm_insertionSort _ _).trans (List.reverse_perm xs)
  sorted _ := List.sorted_insertionSort _ _

/-- Insertion sort by a key in `ℕ` sorts by the key. -/
lemma sorted_insertionSort_key (key : α → Nat) (xs : List α) :
    (List.insertionSort (fun a b => key a ≤ key b) xs).Sorted fun a b => key a ≤ key b :=
  @List.sorted_insertionSort α (fun a b => key a ≤ key b) _ ⟨fun a b => le_total (key a) (key b)⟩
    ⟨fun _ _ _ => le_trans⟩ xs

/-- Insertion sort by a key in `ℕ` meets the contract of `std::sort` for every comparator that the
order of the keys refines. With a key that tells apart entries the comparator does not, it fixes
one order of the ties. -/
def StdSort.byKey (comp : α → α → Bool) (key : α → Nat)
    (h : ∀ a b, key a ≤ key b → comp b a = false) : StdSort α comp where
  sort := List.insertionSort fun a b => key a ≤ key b
  perm := List.perm_insertionSort _
  sorted xs := (sorted_insertionSort_key key xs).imp (h _ _)

/-! ## `std::unique` -/

/-- `std::unique` after the element `kept`: an element `pred`-equal to the last one kept is
dropped, any other is kept and is the one the next elements are compared with. -/
def uniqueFrom (pred : α → α → Bool) (kept : α) : List α → List α
  | [] => []
  | a :: l => if pred kept a then uniqueFrom pred kept l else a :: uniqueFrom pred a l

/-- `std::unique(first, last, pred)`: the range it compacts, whose end it returns. -/
def unique (pred : α → α → Bool) : List α → List α
  | [] => []
  | a :: l => a :: uniqueFrom pred a l

/-- `std::unique` only removes elements. -/
lemma uniqueFrom_sublist (pred : α → α → Bool) (kept : α) (l : List α) :
    (uniqueFrom pred kept l).Sublist l := by
  induction l generalizing kept with
  | nil => exact List.Sublist.slnil
  | cons a l ih =>
    rw [uniqueFrom]
    split
    · exact (ih kept).cons a
    · exact (ih a).cons₂ a

lemma unique_sublist (pred : α → α → Bool) (l : List α) : (unique pred l).Sublist l := by
  cases l with
  | nil => exact List.Sublist.slnil
  | cons a l => exact (uniqueFrom_sublist pred a l).cons₂ a

section Unique

variable {pred : α → α → Bool} (hpred : ∀ a b, pred a b = true ↔ a = b)
include hpred

/-- Continuing after `kept`, `std::unique` loses no value. -/
lemma mem_cons_uniqueFrom_iff (kept x : α) (l : List α) :
    x ∈ kept :: uniqueFrom pred kept l ↔ x ∈ kept :: l := by
  induction l generalizing kept with
  | nil => simp [uniqueFrom]
  | cons a l ih =>
    rw [uniqueFrom]
    split
    · obtain rfl := (hpred kept a).mp ‹_›
      rw [ih kept]
      simp
    · rw [List.mem_cons, ih a, ← List.mem_cons]

lemma mem_unique_iff (x : α) (l : List α) : x ∈ unique pred l ↔ x ∈ l := by
  cases l with
  | nil => simp [unique]
  | cons a l => exact mem_cons_uniqueFrom_iff hpred a x l

/-- On a sorted list, continuing after `kept` leaves a strictly increasing list. -/
lemma uniqueFrom_sorted_lt [PartialOrder α] (kept : α) (l : List α)
    (hl : (kept :: l).Sorted (· ≤ ·)) : (kept :: uniqueFrom pred kept l).Sorted (· < ·) := by
  induction l generalizing kept with
  | nil => simp [uniqueFrom]
  | cons a l ih =>
    rw [uniqueFrom]
    split
    · rename_i h
      obtain rfl := (hpred kept a).mp h
      exact ih kept hl.of_cons
    · rename_i h
      have hka : kept < a := lt_of_le_of_ne (List.rel_of_sorted_cons hl a (List.mem_cons_self a l))
        fun e => h ((hpred kept a).mpr e)
      have htail := ih a (List.sorted_cons.mp hl).2
      refine List.sorted_cons.mpr ⟨fun b hb => ?_, htail⟩
      rcases List.mem_cons.mp hb with rfl | hb
      · exact hka
      · exact hka.trans (List.rel_of_sorted_cons htail b hb)

lemma unique_sorted_lt [PartialOrder α] (l : List α) (hl : l.Sorted (· ≤ ·)) :
    (unique pred l).Sorted (· < ·) := by
  cases l with
  | nil => simp [unique]
  | cons a l => exact uniqueFrom_sorted_lt hpred a l hl

end Unique

/-! ## Partitioned ranges -/

/-- The list is partitioned by `p`: every element before one that satisfies `p` satisfies `p`
too. -/
def Partitioned (p : α → Bool) (xs : List α) : Prop :=
  xs.Pairwise fun a b => p b = true → p a = true

/-- In a partitioned list whose head fails `p`, no element satisfies `p`. -/
lemma Partitioned.countP_tail_eq_zero {p : α → Bool} {a : α} {l : List α}
    (hp : Partitioned p (a :: l)) (ha : ¬ p a = true) : l.countP p = 0 :=
  List.countP_eq_zero.mpr fun b hb h => ha ((List.pairwise_cons.mp hp).1 b hb h)

/-- In a partitioned list the elements that satisfy `p` are exactly the first `countP p`. -/
lemma Partitioned.getElem_iff_lt_countP {p : α → Bool} {xs : List α} (hp : Partitioned p xs)
    (j : Nat) (hj : j < xs.length) : p xs[j] = true ↔ j < xs.countP p := by
  induction xs generalizing j with
  | nil => simp at hj
  | cons a l ih =>
    by_cases ha : p a = true
    · cases j with
      | zero => simp [ha]
      | succ k => simp [ha, ih (List.pairwise_cons.mp hp).2 k (by simpa using hj)]
    · have hc := hp.countP_tail_eq_zero ha
      cases j with
      | zero => simp [ha, hc]
      | succ k => simp [ha, hc, List.countP_eq_zero.mp hc _ (List.getElem_mem _)]

/-- In a partitioned list the first `countP p` elements are those that satisfy `p`. -/
lemma Partitioned.take_countP {p : α → Bool} {xs : List α} (hp : Partitioned p xs) :
    xs.take (xs.countP p) = xs.filter p := by
  induction xs with
  | nil => rfl
  | cons a l ih =>
    by_cases ha : p a = true
    · simp [ha, ih (List.pairwise_cons.mp hp).2]
    · have hc := hp.countP_tail_eq_zero ha
      simpa [ha, hc] using List.countP_eq_zero.mp hc

/-! ## `std::lower_bound` -/

/-- `std::lower_bound(first, last, value, comp)` as libstdc++ runs it on the range `xs`: while the
range is not empty, compare its middle element `xs[len / 2]` with `value`, and go on either past
the middle or before it. The result is the offset of the returned iterator from `first`. -/
def lowerBound (comp : α → α → Bool) (value : α) (xs : List α) : Nat :=
  if h : 0 < xs.length then
    if comp xs[xs.length / 2] value then
      xs.length / 2 + 1 + lowerBound comp value (xs.drop (xs.length / 2 + 1))
    else lowerBound comp value (xs.take (xs.length / 2))
  else 0
termination_by xs.length

/-- On a partitioned range, `std::lower_bound` returns the index of the first element not less
than `value`, or the length of the range if there is none. -/
theorem lowerBound_eq_findIdx (comp : α → α → Bool) (value : α) (xs : List α)
    (hp : Partitioned (comp · value) xs) :
    lowerBound comp value xs = xs.findIdx fun e => !comp e value := by
  induction xs using lowerBound.induct comp value with
  | case1 xs h hmid ih =>
    rw [lowerBound, dif_pos h, if_pos hmid, ih (hp.sublist (List.drop_sublist _ _))]
    have hfront : ∀ x ∈ xs.take (xs.length / 2 + 1), (!comp x value) = false := by
      intro x hx
      obtain ⟨j, hj, rfl⟩ := List.getElem_of_mem hx
      simp only [List.length_take, Nat.lt_min] at hj
      rw [List.getElem_take, Bool.not_eq_false']
      rcases Nat.lt_succ_iff_lt_or_eq.mp hj.1 with hj' | hj'
      · exact List.pairwise_iff_getElem.mp hp j _ hj.2 (by omega) hj' hmid
      · simpa only [hj'] using hmid
    conv_rhs => rw [← List.take_append_drop (xs.length / 2 + 1) xs, List.findIdx_append,
      List.findIdx_eq_length_of_false hfront]
    simp [Nat.add_comm]
    omega
  | case2 xs h hmid ih =>
    rw [lowerBound, dif_pos h, if_neg hmid, ih (hp.sublist (List.take_sublist _ _)),
      List.findIdx_take]
    have hle : xs.findIdx (fun e => !comp e value) ≤ xs.length / 2 := by
      by_contra hlt
      have := List.not_of_lt_findIdx (Nat.lt_of_not_le hlt)
      simp_all
    omega
  | case3 xs h =>
    rw [lowerBound, dif_neg h]
    simp_all

end Art
