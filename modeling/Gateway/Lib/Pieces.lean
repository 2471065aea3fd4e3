/-
  Gateway.Lib.Pieces

  Lists that are cut into pieces of `k` elements, the last one shorter, as by a reader
  with a buffer of `k` elements.
-/

import Mathlib.Data.List.Basic

namespace Gateway.Lib.Pieces

variable {α β : Type} {k : Nat} {l s : List α}

/-- Piece number `i`; there is nothing in those behind the end. -/
def piece (k : Nat) (l : List α) (i : Nat) : List α := (l.drop (k * i)).take k

/-- The pieces of a list, none of them empty. -/
def pieces (k : Nat) (l : List α) : List (List α) :=
  (List.range ((l.length + (k - 1)) / k)).map (piece k l)

theorem piece_zero (k : Nat) (l : List α) : piece k l 0 = l.take k := by
  rw [piece, Nat.mul_zero, List.drop_zero]

theorem piece_succ (k : Nat) (l : List α) (i : Nat) : piece k l (i + 1) = piece k (l.drop k) i := by
  rw [piece, piece, List.drop_drop, Nat.mul_succ, Nat.add_comm]

theorem piece_length_le (k : Nat) (l : List α) (i : Nat) : (piece k l i).length ≤ k := by
  rw [piece, List.length_take]
  omega

theorem mem_of_mem_piece {a : α} {i : Nat} (h : a ∈ piece k l i) : a ∈ l :=
  List.mem_of_mem_drop (List.mem_of_mem_take h)

theorem pieces_nil (hk : 0 < k) : pieces k ([] : List α) = [] := by
  rw [pieces, List.length_nil, Nat.zero_add, Nat.div_eq_of_lt (by omega)]
  rfl

/-- The first piece and those of what follows it. -/
theorem pieces_of_ne_nil (hk : 0 < k) (h : l ≠ []) :
    pieces k l = l.take k :: pieces k (l.drop k) := by
  have hpos : 0 < l.length := List.length_pos_iff.mpr h
  have hcount : (l.length + (k - 1)) / k = ((l.drop k).length + (k - 1)) / k + 1 := by
    rw [List.length_drop]
    by_cases hle : l.length ≤ k
    · have hone : (l.length + (k - 1)) / k = 1 := by
        rw [Nat.div_eq_of_lt_le] <;> omega
      rw [hone, Nat.sub_eq_zero_of_le hle, Nat.zero_add, Nat.div_eq_of_lt (by omega)]
    · rw [← Nat.add_div_right _ hk]
      congr 1
      omega
  have hsucc : piece k l ∘ Nat.succ = piece k (l.drop k) := funext (piece_succ k l)
  rw [pieces, hcount, List.range_succ_eq_map, List.map_cons, List.map_map, hsucc, piece_zero,
    pieces]

/-- The pieces of a list are its pieces that are not empty. -/
theorem mem_pieces (hk : 0 < k) : s ∈ pieces k l ↔ s ≠ [] ∧ ∃ i, s = piece k l i := by
  induction hn : l.length using Nat.strongRecOn generalizing l with
  | _ n ih =>
    by_cases hl : l = []
    · subst hl
      rw [pieces_nil hk]
      refine ⟨fun h => absurd h List.not_mem_nil, fun ⟨hne, i, hi⟩ => absurd ?_ hne⟩
      rw [hi, piece, List.drop_nil, List.take_nil]
    have hpos : 0 < l.length := List.length_pos_iff.mpr hl
    have hdrop := ih (l.drop k).length (by rw [List.length_drop]; omega) rfl
    rw [pieces_of_ne_nil hk hl, List.mem_cons, hdrop]
    constructor
    · rintro (rfl | ⟨hne, i, hi⟩)
      · refine ⟨fun htake => ?_, 0, (piece_zero k l).symm⟩
        rcases List.take_eq_nil_iff.mp htake with h0 | hnil
        · omega
        · exact hl hnil
      · exact ⟨hne, i + 1, by rw [piece_succ]; exact hi⟩
    · rintro ⟨hne, i, hi⟩
      cases i with
      | zero => exact Or.inl (hi.trans (piece_zero k l))
      | succ i => exact Or.inr ⟨hne, i, by rw [hi, piece_succ]⟩

/-- What is computed piece by piece: from the first one, and from the ones behind. -/
theorem flatMap_pieces (hk : 0 < k) (f : List α → List β) (hf : f [] = []) (l : List α) :
    (pieces k l).flatMap f = f (l.take k) ++ (pieces k (l.drop k)).flatMap f := by
  by_cases hl : l = []
  · subst hl
    rw [List.take_nil, List.drop_nil, hf, List.nil_append]
  · rw [pieces_of_ne_nil hk hl, List.flatMap_cons]

end Gateway.Lib.Pieces
