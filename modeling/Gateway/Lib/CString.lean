/-
  Gateway.Lib.CString

  C strings in byte arrays: a string ends at the first NUL of its array.  `padded`
  is the array that holds a string with zeros behind it, the form `memset` and the
  string functions leave it in.
-/

import Mathlib.Data.List.TakeWhile
import Gateway.Lib.ByteWindow

namespace Gateway.Lib.CString

open Gateway.Lib.ByteWindow

/-! ## Strings -/

/-- The bytes of a string literal, without its NUL. -/
def cstr (s : List Char) : List UInt8 := s.map Char.toUInt8

/-- `strlen` of the string at the start of an array; `none` when there is no NUL. -/
def strlen (l : List UInt8) : Option Nat := l.findIdx? (· == 0)

/-- The string at the start of an array, without its NUL. -/
def stringOf (l : List UInt8) : List UInt8 := l.takeWhile (· != 0)

/-- `strchr(s, c)` for a character other than NUL: the index of the first `c` before the NUL. -/
def strchr (s : List UInt8) (c : UInt8) : Option Nat :=
  (s.takeWhile (· != 0)).findIdx? (· == c)

/-- `strncat(l, src, n)`: the string `src`, cut to `n` bytes, and a NUL behind the string in
    the array `l`; `none` when that does not fit. -/
def strncat (l src : List UInt8) (n : Nat) : Option (List UInt8) := do
  let i ← strlen l
  let w := src.take n ++ [0]
  if i + w.length ≤ l.length then some (splice l i w) else none

/-- A character is found behind a text that does not have it. -/
theorem findIdx?_eq_some_of_append {c : UInt8} {text rest : List UInt8} (h : c ∉ text) :
    (text ++ c :: rest).findIdx? (· == c) = some text.length := by
  have hnone : text.findIdx? (· == c) = none := by
    refine List.findIdx?_eq_none_iff.mpr fun b hb => ?_
    rw [beq_eq_false_iff_ne]
    rintro rfl
    exact h hb
  rw [List.findIdx?_append, hnone, List.findIdx?_cons]
  simp

/-- The character is found behind a text that has neither it nor a NUL. -/
theorem strchr_append {text rest : List UInt8} {c : UInt8} (hc : c ∉ text) (hnul : 0 ∉ text)
    (h0 : c ≠ 0) : strchr (text ++ c :: rest) c = some text.length := by
  have hnonnul : ∀ b ∈ text, (b != 0) = true := by
    intro b hb
    rw [bne_iff_ne]
    rintro rfl
    exact hnul hb
  rw [strchr, List.takeWhile_append_of_pos hnonnul, List.takeWhile_cons_of_pos (by simpa using h0),
    findIdx?_eq_some_of_append hc]

/-! ## Padded arrays -/

/-- An array of `k` bytes that holds the string `text`, with zeros behind. -/
def padded (k : Nat) (text : List UInt8) : List UInt8 := text ++ List.replicate (k - text.length) 0

theorem padded_length {k : Nat} {text : List UInt8} (h : text.length ≤ k) :
    (padded k text).length = k := by
  rw [padded, List.length_append, List.length_replicate]
  omega

/-- A string that is copied to the start of an array of zeros. -/
theorem putAt_zeros {k : Nat} {text : List UInt8} (h : text.length ≤ k) :
    putAt (List.replicate k 0) 0 text = some (padded k text) := by
  rw [putAt_eq (by rw [List.length_replicate]; omega), splice, List.take_zero, List.nil_append,
    Nat.zero_add, List.drop_replicate, padded]

/-! ### The string in an array -/

/-- A text without a NUL is its own string. -/
theorem stringOf_eq_self {text : List UInt8} (hnul : 0 ∉ text) : stringOf text = text := by
  refine List.takeWhile_eq_self_iff.mpr fun b hb => ?_
  rw [bne_iff_ne]
  rintro rfl
  exact hnul hb

/-- `strlen` counts the string, if it ends inside of the array. -/
theorem strlen_eq (l : List UInt8) :
    strlen l = if (stringOf l).length < l.length then some (stringOf l).length else none := by
  induction l with
  | nil => rfl
  | cons b l ih =>
    by_cases hb : b = 0
    · subst hb
      rfl
    · have hne : (b == 0) = false := beq_eq_false_iff_ne.mpr hb
      have hstring : stringOf (b :: l) = b :: stringOf l :=
        List.takeWhile_cons_of_pos (bne_iff_ne.mpr hb)
      rw [strlen] at ih
      rw [strlen, List.findIdx?_cons, hne, hstring, List.length_cons, List.length_cons, ih]
      by_cases hlt : (stringOf l).length < l.length
      · rw [if_pos hlt, if_pos (Nat.succ_lt_succ hlt)]
        rfl
      · rw [if_neg hlt, if_neg fun h => hlt (Nat.lt_of_succ_lt_succ h)]
        rfl

/-- An array without a NUL holds no string. -/
theorem strlen_eq_none_iff {l : List UInt8} : strlen l = none ↔ 0 ∉ l := by
  rw [strlen, List.findIdx?_eq_none_iff]
  constructor
  · intro h hmem
    exact absurd (h 0 hmem) (by decide)
  · intro h b hb
    rw [beq_eq_false_iff_ne]
    rintro rfl
    exact h hb

/-- The bytes that `strlen` counts are the string. -/
theorem take_strlen {l : List UInt8} {n : Nat} (h : strlen l = some n) : l.take n = stringOf l := by
  rw [strlen_eq] at h
  split at h
  · rw [← Option.some_inj.mp h]
    exact (List.prefix_iff_eq_take.mp (List.takeWhile_prefix _)).symm
  · cases h

/-- The zeros behind a text end its string. -/
theorem stringOf_padded (k : Nat) (text : List UInt8) : stringOf (padded k text) = stringOf text := by
  rw [stringOf, stringOf, padded, List.takeWhile_append]
  split
  · next hall =>
    have hself : text.takeWhile (· != 0) = text := (List.takeWhile_prefix _).eq_of_length hall
    rw [List.takeWhile_replicate, if_neg (by simp), List.append_nil, hself]
  · rfl

/-- `strlen` finds the string of a text in its array, unless that is the whole array. -/
theorem strlen_padded_of_le {k : Nat} {text : List UInt8} (h : text.length ≤ k) :
    strlen (padded k text)
      = if (stringOf text).length < k then some (stringOf text).length else none := by
  rw [strlen_eq, stringOf_padded, padded_length h]

/-- The string is found by its length. -/
theorem strlen_padded {k : Nat} {text : List UInt8} (h : text.length < k)
    (hnul : 0 ∉ text) : strlen (padded k text) = some text.length := by
  rw [strlen_padded_of_le (Nat.le_of_lt h), stringOf_eq_self hnul, if_pos h]

/-- An array holds one string. -/
theorem padded_inj {k : Nat} {text text' : List UInt8}
    (h : strlen (padded k text) = some text.length)
    (h' : strlen (padded k text') = some text'.length) (heq : padded k text = padded k text') :
    text = text' := by
  have hlen : text.length = text'.length := by
    rw [heq, h'] at h
    exact (Option.some_inj.mp h).symm
  have htake := congrArg (List.take text.length) heq
  rw [padded, List.take_left, padded, hlen, List.take_left] at htake
  exact htake

/-- Appending a string that fits, with its NUL. -/
theorem strncat_padded {k n : Nat} {text src : List UInt8} (h : text.length + src.length < k)
    (hn : src.length ≤ n) (hnul : 0 ∉ text) :
    strncat (padded k text) src n = some (padded k (text ++ src)) := by
  have hlen : (padded k text).length = k := padded_length (by omega)
  rw [strncat, strlen_padded (by omega) hnul]
  simp only [Option.bind_eq_bind, Option.bind_some, List.take_of_length_le hn]
  rw [if_pos (by rw [hlen, List.length_append, List.length_singleton]; omega)]
  -- the string ends where the zeros of the array start
  have hdrop : (padded k text).drop (text.length + (src ++ [0]).length)
      = List.replicate (k - (text ++ src).length - 1) 0 := by
    rw [padded, List.drop_append, List.drop_eq_nil_of_le (by omega), List.nil_append,
      List.drop_replicate, List.length_append, List.length_append, List.length_singleton]
    congr 1
    omega
  obtain ⟨j, hj⟩ : ∃ j, k - (text ++ src).length = j + 1 :=
    ⟨k - (text ++ src).length - 1, by rw [List.length_append]; omega⟩
  have htake : (padded k text).take text.length = text := List.take_left
  rw [splice, hdrop, htake, padded, hj, Nat.add_sub_cancel, List.replicate_succ]
  simp only [List.append_assoc, List.singleton_append]

/-! ## Appending with a counter of the space that is left -/

/-- Appending a string that fits, whatever stands behind the NUL. -/
theorem strncat_append {n : Nat} {text rest src : List UInt8} (hnul : 0 ∉ text)
    (hn : src.length ≤ n) (hfit : src.length ≤ rest.length) :
    strncat (text ++ 0 :: rest) src n = some (text ++ src ++ 0 :: rest.drop src.length) := by
  have hstrlen : strlen (text ++ 0 :: rest) = some text.length := findIdx?_eq_some_of_append hnul
  rw [strncat, hstrlen]
  simp only [Option.bind_eq_bind, Option.bind_some, List.take_of_length_le hn]
  rw [if_pos (by simp only [List.length_append, List.length_cons, List.length_nil]; omega)]
  -- the old NUL and the bytes behind it make room
  have hdrop : (text ++ 0 :: rest).drop (text.length + (src ++ [0]).length)
      = rest.drop src.length := by
    rw [← List.drop_drop, List.drop_left, List.length_append, List.length_singleton,
      List.drop_succ_cons]
  rw [splice, hdrop, List.take_left]
  simp only [List.append_assoc, List.singleton_append]

/-- Appending keeps the first character of a string that has one. -/
theorem strncat_head? {l l' src : List UInt8} {n : Nat} (h : strncat l src n = some l')
    (hne : l.head? ≠ some 0) : l'.head? = l.head? := by
  obtain ⟨i, hi, h⟩ := Option.bind_eq_some_iff.mp h
  simp only at h
  split at h
  · obtain rfl := Option.some_inj.mp h
    cases l with
    | nil => cases hi
    | cons b l =>
      have hb : (b == 0) = false := by
        rw [beq_eq_false_iff_ne]
        rintro rfl
        exact hne rfl
      -- the NUL is not the first byte
      rw [strlen, List.findIdx?_cons, if_neg (by simp [hb])] at hi
      obtain ⟨j, -, rfl⟩ := Option.map_eq_some_iff.mp hi
      rfl
  · cases h

/-- The strings one behind the other, with a counter of 16 bits that gives `strncat` its bound and
    is lowered by the whole length of each string. -/
def appendAll : List (List UInt8) → List UInt8 → UInt16 → Option (List UInt8 × UInt16)
  | [], l, len => some (l, len)
  | src :: srcs, l, len => do
    let l ← strncat l src len.toNat
    appendAll srcs l (len - UInt16.ofNat src.length)

/-- The counter is never lowered by more than it is. -/
def NeverWraps : List (List UInt8) → UInt16 → Prop
  | [], _ => True
  | src :: srcs, len => src.length ≤ len.toNat ∧ NeverWraps srcs (len - UInt16.ofNat src.length)

theorem appendAll_append (srcs srcs' : List (List UInt8)) (l : List UInt8) (len : UInt16) :
    appendAll (srcs ++ srcs') l len
      = (appendAll srcs l len).bind fun r => appendAll srcs' r.1 r.2 := by
  induction srcs generalizing l len with
  | nil => rfl
  | cons src srcs ih =>
    rw [List.cons_append, appendAll, appendAll]
    cases strncat l src len.toNat with
    | none => rfl
    | some l' => exact ih l' _

theorem appendAll_head? {srcs : List (List UInt8)} {l l' : List UInt8} {len len' : UInt16}
    (h : appendAll srcs l len = some (l', len')) (hne : l.head? ≠ some 0) : l'.head? = l.head? := by
  induction srcs generalizing l len with
  | nil =>
    cases h
    rfl
  | cons src srcs ih =>
    obtain ⟨l₁, hl₁, h⟩ := Option.bind_eq_some_iff.mp h
    have hhead := strncat_head? hl₁ hne
    rw [ih h (by rwa [hhead]), hhead]

theorem toNat_sub_ofNat {len : UInt16} {n : Nat} (h : n ≤ len.toNat) :
    (len - UInt16.ofNat n).toNat = len.toNat - n := by
  have hlt := len.toNat_lt
  have hn : (UInt16.ofNat n).toNat = n := by
    rw [UInt16.toNat_ofNat']
    omega
  rw [UInt16.toNat_sub_of_le _ _ (by rw [UInt16.le_iff_toNat_le]; omega), hn]

/-- The counter wraps when the strings together are longer than it was at first, and not before. -/
theorem neverWraps_iff {srcs : List (List UInt8)} {len : UInt16} :
    NeverWraps srcs len ↔ srcs.flatten.length ≤ len.toNat := by
  induction srcs generalizing len with
  | nil => exact ⟨fun _ => Nat.zero_le _, fun _ => trivial⟩
  | cons src srcs ih =>
    rw [NeverWraps, ih, List.flatten_cons, List.length_append]
    constructor
    · rintro ⟨hle, hrest⟩
      rw [toNat_sub_ofNat hle] at hrest
      omega
    · intro h
      have hle : src.length ≤ len.toNat := by omega
      refine ⟨hle, ?_⟩
      rw [toNat_sub_ofNat hle]
      omega

/-- As long as it does not, the strings are appended. -/
theorem appendAll_fits {srcs : List (List UInt8)} {text rest : List UInt8} {len : UInt16}
    (hfits : NeverWraps srcs len) (hroom : len.toNat ≤ rest.length) (hnul : 0 ∉ text)
    (hsrcs : ∀ src ∈ srcs, 0 ∉ src) :
    ∃ rest' len', appendAll srcs (text ++ 0 :: rest) len
        = some (text ++ srcs.flatten ++ 0 :: rest', len') ∧
      rest'.length + srcs.flatten.length = rest.length := by
  induction srcs generalizing text rest len with
  | nil => exact ⟨rest, len, by rw [List.flatten_nil, List.append_nil]; rfl, rfl⟩
  | cons src srcs ih =>
    obtain ⟨hle, hrest⟩ := hfits
    have hsrc := hsrcs src (List.mem_cons_self ..)
    obtain ⟨rest', len', hrun, hlen⟩ := @ih (text ++ src) (rest.drop src.length) _ hrest
      (by rw [toNat_sub_ofNat hle, List.length_drop]; omega)
      (fun hmem => (List.mem_append.mp hmem).elim hnul hsrc)
      (fun src' hsrc' => hsrcs src' (List.mem_cons_of_mem _ hsrc'))
    rw [List.length_drop] at hlen
    refine ⟨rest', len', ?_, by rw [List.flatten_cons, List.length_append]; omega⟩
    rw [appendAll, strncat_append hnul hle (by omega)]
    simp only [Option.bind_eq_bind, Option.bind_some]
    rw [hrun, List.flatten_cons, List.append_assoc text]

end Gateway.Lib.CString
