/-
  Gateway.Lib.ByteWindow

  Windows of a list: reading `n` elements from index `i` (`slice`) and
  overwriting the elements from index `i` on (`splice`).  A C array is a list of
  fixed length here, a `memcpy` or `memmove` into it is one `splice`, and a run
  of consecutive stores is one `splice` of everything stored
  (`splice_splice_append`).
-/

import Mathlib.Data.List.Basic

namespace Gateway.Lib.ByteWindow

variable {α : Type _}

/-- The `n` elements of `l` from index `i` on (fewer when `l` is too short). -/
def slice (l : List α) (i n : Nat) : List α := (l.drop i).take n

/-- `l` with the elements from index `i` on overwritten by `w`. -/
def splice (l : List α) (i : Nat) (w : List α) : List α :=
  l.take i ++ w ++ l.drop (i + w.length)

/-- Overwrite the elements from index `i` on by `w`, if that stays inside. -/
def putAt (l : List α) (i : Nat) (w : List α) : Option (List α) :=
  if i + w.length ≤ l.length then some (splice l i w) else none

/-- Copy the `n` elements from index `src` on to index `dst`, if both windows are inside. -/
def moveAt (l : List α) (dst src n : Nat) : Option (List α) :=
  if src + n ≤ l.length then putAt l dst (slice l src n) else none

/-! ## Reading a window -/

@[simp] theorem slice_zero (l : List α) (i : Nat) : slice l i 0 = [] := by
  simp [slice]

theorem slice_length {l : List α} {i n : Nat} (h : i + n ≤ l.length) :
    (slice l i n).length = n := by
  rw [slice, List.length_take, List.length_drop]
  omega

/-- A window that reaches the end of the list is the rest of the list. -/
theorem slice_to_end {l : List α} {i n : Nat} (h : l.length ≤ i + n) :
    slice l i n = l.drop i := by
  rw [slice, List.take_of_length_le]
  rw [List.length_drop]
  omega

theorem slice_getElem? {l : List α} {i n j : Nat} (h : j < n) :
    (slice l i n)[j]? = l[i + j]? := by
  rw [slice, List.getElem?_take, if_pos h, List.getElem?_drop]

theorem slice_drop (l : List α) (i n k : Nat) :
    (slice l i n).drop k = slice l (i + k) (n - k) := by
  rw [slice, List.drop_take, List.drop_drop, slice]

theorem slice_take (l : List α) (i n k : Nat) :
    (slice l i n).take k = slice l i (min k n) := by
  rw [slice, List.take_take, slice]

theorem slice_append_right {a b : List α} {n : Nat} :
    slice (a ++ b) a.length n = b.take n := by
  rw [slice, List.drop_left]

/-- The first `k` elements of a window that starts with `a`. -/
theorem slice_of_slice_eq_append {l a b : List α} {i n : Nat} (h : slice l i n = a ++ b) :
    slice l i a.length = a := by
  have hlen : a.length ≤ n := by
    have hl := congrArg List.length h
    rw [slice, List.length_take, List.length_append] at hl
    omega
  have ht := congrArg (List.take a.length) h
  rwa [slice_take, List.take_left, Nat.min_eq_left hlen] at ht

/-- What a window holds behind its first elements `a`. -/
theorem slice_add_of_slice_eq_append {l a b : List α} {i n : Nat} (h : slice l i n = a ++ b) :
    slice l (i + a.length) (n - a.length) = b := by
  rw [← slice_drop, h, List.drop_left]

theorem slice_succ_of_slice_eq_cons {l b : List α} {a : α} {i n : Nat}
    (h : slice l i n = a :: b) : slice l (i + 1) (n - 1) = b :=
  @slice_add_of_slice_eq_append _ l [a] b i n h

theorem getElem?_of_slice_eq_cons {l b : List α} {a : α} {i n : Nat}
    (h : slice l i n = a :: b) : l[i]? = some a := by
  have hn : 0 < n := by
    rcases Nat.eq_zero_or_pos n with rfl | hn
    · rw [slice_zero] at h
      cases h
    · exact hn
  have h0 : (slice l i n)[0]? = some a := by rw [h]; rfl
  rwa [slice_getElem? hn, Nat.add_zero] at h0

/-! ## Overwriting a window -/

@[simp] theorem splice_nil (l : List α) (i : Nat) : splice l i [] = l := by
  simp [splice]

theorem splice_length {l w : List α} {i : Nat} (h : i + w.length ≤ l.length) :
    (splice l i w).length = l.length := by
  simp only [splice, List.length_append, List.length_take, List.length_drop]
  omega

/-- The list up to the end of the overwritten window. -/
theorem take_splice {l w : List α} {i : Nat} (h : i ≤ l.length) :
    (splice l i w).take (i + w.length) = l.take i ++ w := by
  have hlen : (l.take i ++ w).length = i + w.length := by
    rw [List.length_append, List.length_take]
    omega
  rw [splice, ← hlen, List.take_left]

/-- What stands before the overwritten window stays. -/
theorem take_splice_of_le {l w : List α} {i k : Nat} (hk : k ≤ i) (hi : i ≤ l.length) :
    (splice l i w).take k = l.take k := by
  rw [splice, List.append_assoc, List.take_append_of_le_length (by rw [List.length_take]; omega),
    List.take_take, Nat.min_eq_left hk]

/-- Element characterization of an overwritten list. -/
theorem splice_getElem? {l w : List α} {i : Nat} (h : i + w.length ≤ l.length) (j : Nat) :
    (splice l i w)[j]? = if i ≤ j ∧ j < i + w.length then w[j - i]? else l[j]? := by
  have hlen : (l.take i).length = i := by rw [List.length_take]; omega
  rw [splice, List.append_assoc]
  by_cases hj : j < i
  · rw [List.getElem?_append_left (by omega), List.getElem?_take, if_pos hj, if_neg (by omega)]
  · rw [List.getElem?_append_right (by omega), hlen]
    by_cases hw : j < i + w.length
    · rw [List.getElem?_append_left (by omega), if_pos (by omega)]
    · rw [List.getElem?_append_right (by omega), List.getElem?_drop, if_neg (by omega)]
      congr 1
      omega

/-- The overwritten window reads back what was written. -/
theorem slice_splice_self {l w : List α} {i : Nat} (h : i + w.length ≤ l.length) :
    slice (splice l i w) i w.length = w := by
  apply List.ext_getElem?
  intro j
  by_cases hj : j < w.length
  · rw [slice_getElem? hj, splice_getElem? h, if_pos (by omega)]
    congr 1
    omega
  · have hlen : (slice (splice l i w) i w.length).length = w.length :=
      slice_length (by rw [splice_length h]; exact h)
    rw [List.getElem?_eq_none (by omega), List.getElem?_eq_none (by omega)]

/-- A window that is disjoint from the overwritten one reads as before. -/
theorem slice_splice_disjoint {l w : List α} {i j n : Nat} (h : i + w.length ≤ l.length)
    (hj : j + n ≤ i ∨ i + w.length ≤ j) :
    slice (splice l i w) j n = slice l j n := by
  apply List.ext_getElem?
  intro k
  by_cases hk : k < n
  · rw [slice_getElem? hk, slice_getElem? hk, splice_getElem? h, if_neg (by omega)]
  · rw [List.getElem?_eq_none, List.getElem?_eq_none] <;>
      rw [slice, List.length_take] <;> omega

/-- Two adjacent overwrites are one. -/
theorem splice_splice_append {l a b : List α} {i : Nat}
    (h : i + a.length + b.length ≤ l.length) :
    splice (splice l i a) (i + a.length) b = splice l i (a ++ b) := by
  have hab : i + (a ++ b).length ≤ l.length := by rw [List.length_append]; omega
  have hla : (splice l i a).length = l.length := splice_length (by omega)
  apply List.ext_getElem?
  intro j
  rw [splice_getElem? (by omega), splice_getElem? hab, List.length_append]
  by_cases hb : i + a.length ≤ j ∧ j < i + a.length + b.length
  · rw [if_pos hb, if_pos (by omega), List.getElem?_append_right (by omega)]
    congr 1
    omega
  · rw [if_neg hb, splice_getElem? (by omega)]
    by_cases ha : i ≤ j ∧ j < i + a.length
    · rw [if_pos ha, if_pos (by omega), List.getElem?_append_left (by omega)]
    · rw [if_neg ha, if_neg (by omega)]

/-- Adjacent overwrites are one also when the second one stands before the first. -/
theorem splice_splice_before {l a b : List α} {i : Nat}
    (h : i + a.length + b.length ≤ l.length) :
    splice (splice l (i + a.length) b) i a = splice l i (a ++ b) := by
  have hlb : (splice l (i + a.length) b).length = l.length := splice_length (by omega)
  have htake : (splice l (i + a.length) b).take i = l.take i := take_splice_of_le (by omega) (by omega)
  have hdrop : (splice l (i + a.length) b).drop (i + a.length)
      = b ++ l.drop (i + a.length + b.length) := by
    have hlen : (l.take (i + a.length)).length = i + a.length := by
      rw [List.length_take]
      omega
    rw [splice, List.append_assoc]
    exact List.drop_left' hlen
  rw [splice, htake, hdrop, splice, List.length_append, Nat.add_assoc]
  simp only [List.append_assoc]

theorem putAt_eq {l w : List α} {i : Nat} (h : i + w.length ≤ l.length) :
    putAt l i w = some (splice l i w) := if_pos h

/-- A write in place keeps the length. -/
theorem putAt_length {l l' w : List α} {i : Nat} (h : putAt l i w = some l') :
    l'.length = l.length := by
  unfold putAt at h
  split at h
  · next hfit => rw [← Option.some_inj.mp h, splice_length hfit]
  · cases h

/-- Overwriting what stands behind the first elements. -/
theorem splice_append {a b w : List α} :
    splice (a ++ b) a.length w = a ++ w ++ b.drop w.length := by
  rw [splice, List.take_left, List.drop_append, List.drop_eq_nil_of_le (by omega),
    List.nil_append, Nat.add_sub_cancel_left]

/-- Overwriting a window that is named. -/
theorem putAt_append {a b c w : List α} (h : w.length = b.length) :
    putAt (a ++ b ++ c) a.length w = some (a ++ w ++ c) := by
  rw [putAt_eq (by simp only [List.length_append]; omega), List.append_assoc, splice_append,
    h, List.drop_left]

theorem moveAt_eq {l w : List α} {dst src n : Nat} (hw : slice l src n = w)
    (hsrc : src + n ≤ l.length) (hdst : dst + n ≤ l.length) :
    moveAt l dst src n = some (splice l dst w) := by
  rw [moveAt, if_pos hsrc, hw, putAt_eq (by rw [← hw, slice_length hsrc]; exact hdst)]

end Gateway.Lib.ByteWindow
