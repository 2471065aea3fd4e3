/-
  Gateway.Lib.Quoting

  String literals that are closed by the character they are opened with, where a
  quote inside of the literal is written twice.

  `literal q v` is how the value `v` is written, `readLiteral q` reads a literal off
  the front of a text.  Both directions hold: what was written is read back
  (`readLiteral_literal`), and what is read was written that way
  (`eq_literal_of_readLiteral`).  So a value that is put between two quotes as it is
  denotes itself only if it has no quote (`readLiteral_verbatim`).
-/

import Mathlib.Data.List.Basic
import Mathlib.Tactic.Linarith

namespace Gateway.Lib.Quoting

variable {α : Type} [DecidableEq α]

/-! ## Writing -/

/-- Every quote twice. -/
def doubled (q : α) (v : List α) : List α := v.flatMap fun a => if a = q then [q, q] else [a]

/-- A value as a literal. -/
def literal (q : α) (v : List α) : List α := q :: (doubled q v ++ [q])

@[simp] theorem doubled_nil (q : α) : doubled q [] = [] := rfl

theorem doubled_cons_self (q : α) (v : List α) : doubled q (q :: v) = q :: q :: doubled q v := by
  rw [doubled, List.flatMap_cons, if_pos rfl]
  rfl

theorem doubled_cons_ne {q a : α} (h : a ≠ q) (v : List α) :
    doubled q (a :: v) = a :: doubled q v := by
  rw [doubled, List.flatMap_cons, if_neg h]
  rfl

theorem doubled_of_not_mem {q : α} {v : List α} (h : q ∉ v) : doubled q v = v := by
  induction v with
  | nil => rfl
  | cons a v ih =>
    have hne : a ≠ q := fun hc => h (hc ▸ List.mem_cons_self ..)
    rw [doubled_cons_ne hne, ih fun hc => h (List.mem_cons_of_mem _ hc)]

theorem count_doubled (q : α) (v : List α) : (doubled q v).count q = 2 * v.count q := by
  induction v with
  | nil => rfl
  | cons a v ih =>
    by_cases h : a = q
    · subst h
      rw [doubled_cons_self, List.count_cons_self, List.count_cons_self, List.count_cons_self, ih]
      omega
    · rw [doubled_cons_ne h, List.count_cons_of_ne h, List.count_cons_of_ne h, ih]

/-! ## Reading -/

/-- The rest of a literal behind its first quote: the value, and what stands behind the closing
    quote. -/
def readBody (q : α) : List α → Option (List α × List α)
  | [] => none
  | [a] => if a = q then some ([], []) else none
  | a :: b :: l =>
    if a = q then
      -- a quote and another one stand for a quote of the value
      if b = q then (readBody q l).map fun r => (q :: r.1, r.2) else some ([], b :: l)
    else (readBody q (b :: l)).map fun r => (a :: r.1, r.2)

/-- A literal at the front of a text: its value and what stands behind it. -/
def readLiteral (q : α) : List α → Option (List α × List α)
  | [] => none
  | a :: l => if a = q then readBody q l else none

theorem readBody_close {q : α} {rest : List α} (h : rest.head? ≠ some q) :
    readBody q (q :: rest) = some ([], rest) := by
  cases rest with
  | nil => rw [readBody, if_pos rfl]
  | cons b l =>
    have hne : b ≠ q := fun hc => h (by rw [hc]; rfl)
    rw [readBody, if_pos rfl, if_neg hne]

theorem readBody_cons_ne {q a : α} {l : List α} (h : a ≠ q) :
    readBody q (a :: l) = (readBody q l).map fun r => (a :: r.1, r.2) := by
  cases l with
  | nil => simp only [readBody, if_neg h, Option.map_none]
  | cons b l => rw [readBody, if_neg h]

/-- What was written is read back. -/
theorem readBody_doubled {q : α} {v rest : List α} (h : rest.head? ≠ some q) :
    readBody q (doubled q v ++ q :: rest) = some (v, rest) := by
  induction v with
  | nil => exact readBody_close h
  | cons a v ih =>
    by_cases ha : a = q
    · subst ha
      rw [doubled_cons_self, List.cons_append, List.cons_append, readBody, if_pos rfl, if_pos rfl, ih]
      rfl
    · rw [doubled_cons_ne ha, List.cons_append, readBody_cons_ne ha, ih]
      rfl

theorem readLiteral_literal {q : α} {v rest : List α} (h : rest.head? ≠ some q) :
    readLiteral q (literal q v ++ rest) = some (v, rest) := by
  rw [literal, List.cons_append, readLiteral, if_pos rfl, List.append_assoc]
  exact readBody_doubled h

/-- What is read was written that way. -/
theorem eq_doubled_of_readBody {q : α} {l v rest : List α} (h : readBody q l = some (v, rest)) :
    l = doubled q v ++ q :: rest := by
  induction l using readBody.induct q generalizing v with
  | case1 => cases h
  | case2 =>
    rw [readBody, if_pos rfl] at h
    obtain ⟨rfl, rfl⟩ := Prod.mk.inj (Option.some_inj.mp h)
    rfl
  | case3 a ha =>
    rw [readBody, if_neg ha] at h
    cases h
  | case4 l ih =>
    rw [readBody, if_pos rfl, if_pos rfl] at h
    obtain ⟨⟨w, r⟩, hr, heq⟩ := Option.map_eq_some_iff.mp h
    obtain ⟨rfl, rfl⟩ := Prod.mk.inj heq
    rw [ih hr, doubled_cons_self]
    rfl
  | case5 b l hb =>
    rw [readBody, if_pos rfl, if_neg hb] at h
    obtain ⟨rfl, rfl⟩ := Prod.mk.inj (Option.some_inj.mp h)
    rfl
  | case6 a b l ha ih =>
    rw [readBody, if_neg ha] at h
    obtain ⟨⟨w, r⟩, hr, heq⟩ := Option.map_eq_some_iff.mp h
    obtain ⟨rfl, rfl⟩ := Prod.mk.inj heq
    rw [ih hr, doubled_cons_ne ha]
    rfl

theorem eq_literal_of_readLiteral {q : α} {l v rest : List α}
    (h : readLiteral q l = some (v, rest)) : l = literal q v ++ rest := by
  cases l with
  | nil => cases h
  | cons a l =>
    rw [readLiteral] at h
    split at h
    · next ha =>
      rw [ha, eq_doubled_of_readBody h, literal]
      simp only [List.cons_append, List.append_assoc, List.nil_append]
    · cases h

/-! ## Values that are not doubled -/

/-- A value between two quotes as it is, in front of a text without quotes, is read as itself
    exactly when it has no quote. -/
theorem readLiteral_verbatim {q : α} {v rest : List α} (h : q ∉ rest) :
    (∃ rest', readLiteral q (q :: (v ++ q :: rest)) = some (v, rest')) ↔ q ∉ v := by
  constructor
  · rintro ⟨rest', hread⟩ hmem
    -- the text would have each quote of the value twice, and there are not that many
    have heq := congrArg (List.count q) (eq_literal_of_readLiteral hread)
    have hpos := List.count_pos_iff.mpr hmem
    have hrest := List.count_eq_zero.mpr h
    simp only [literal, List.cons_append, List.append_assoc, List.nil_append,
      List.count_cons_self, List.count_append, count_doubled, hrest] at heq
    omega
  · intro hno
    have hhead : rest.head? ≠ some q := fun hc => h (List.mem_of_mem_head? hc)
    have hread := @readLiteral_literal _ _ q v rest hhead
    rw [literal, doubled_of_not_mem hno] at hread
    simp only [List.cons_append, List.append_assoc, List.nil_append] at hread
    exact ⟨rest, hread⟩

end Gateway.Lib.Quoting
