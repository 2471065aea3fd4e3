/-
  Gateway.Iptable.TableText

  The table as a text: which files `ParsTxt` turns into one entry per line.

  `tableEntry` is what a line of the table stands for.  `ParsTxt` does not see the
  lines: it reads them through a buffer of 128 bytes, so a line of more than 127 bytes
  comes in pieces, and every piece is taken for a line.  It also copies the address
  part before it knows that there is a path, with the length of the text up to the
  slash.  `parsTxt_exact_iff` says for which lines neither shows.
-/

import Gateway.Lib.Pieces
import Gateway.Iptable.ParsTxt

namespace Gateway.Iptable.TableText

open Gateway.Lib.ByteWindow Gateway.Lib.CString Gateway.Lib.NodeChain Gateway.Lib.Pieces
open Gateway.Comm.LinkedList Gateway.Comm.ListRuns Gateway.Iptable.ParsTxt

/-! ## The table -/

/-- The text before the first slash, and the text from there up to the next `#`. -/
def fieldsOf (line : List UInt8) : Option (List UInt8 × List UInt8) := do
  let p ← line.findIdx? (· == 0x2F)
  let e ← (line.drop (p + 1)).findIdx? (· == 0x23)
  some (line.take p, (line.drop (p + 1)).take e)

/-- The entry of a line: its fields, if both fit into their arrays with a NUL. -/
def tableEntry (line : List UInt8) : Option CoapIP :=
  (fieldsOf line).bind fun (ip, path) =>
    if ip.length < coapIpLen ∧ path.length < coapPathLen then some (entry ip path) else none

/-- The lines of a file, without their newlines. -/
def fileLines (file : List UInt8) : List (List UInt8) := file.splitOn 0x0A

/-- `ParsTxt` ends, and `iplist` holds the entries of the lines, in their order. -/
def Exact (addrs : List Addr) (file : List UInt8) (iplist : IpList) : Prop :=
  ∃ iplist' t, parsTxt (addrs.map some) file iplist = some iplist' ∧ Holds iplist' t ∧
    t.cells.map Prod.snd = (fileLines file).filterMap tableEntry

/-- Piece `i` of a line, as `fgets` reads it. -/
def linePiece (line : List UInt8) (i : Nat) : List UInt8 := piece (buffSize - 1) line i

/-- A line that is read as what it stands for. -/
structure LineFine (line : List UInt8) : Prop where
  /-- The address part of a piece fits; of 64 bytes it may be only in a piece without path. -/
  ips : ∀ i p, (linePiece line i).findIdx? (· == 0x2F) = some p →
    p < coapIpLen ∨ p = coapIpLen ∧ fieldsOf (linePiece line i) = none
  /-- The pieces behind the first one do not look like a line of the table. -/
  later : ∀ i, 0 < i → fieldsOf (linePiece line i) = none
  /-- A line of the table has its `#` in the first piece. -/
  first : ∀ ip path, fieldsOf line = some (ip, path) → ip.length < coapIpLen →
    path.length < coapPathLen → ip.length + path.length + 2 ≤ buffSize - 1

/-! ## Fields -/

section Fields

variable {line ip path : List UInt8}

/-- A byte that is found stands behind a text without it. -/
theorem eq_append_of_findIdx? {c : UInt8} {l : List UInt8} {p : Nat}
    (h : l.findIdx? (· == c) = some p) :
    l = l.take p ++ c :: l.drop (p + 1) ∧ c ∉ l.take p ∧ (l.take p).length = p := by
  obtain ⟨hp, hc, hbefore⟩ := List.findIdx?_eq_some_iff_getElem.mp h
  have hlen : (l.take p).length = p := by
    rw [List.length_take]
    omega
  refine ⟨?_, fun hmem => ?_, hlen⟩
  · rw [beq_iff_eq] at hc
    rw [← hc, ← List.drop_eq_getElem_cons hp, List.take_append_drop]
  · obtain ⟨j, hj, hget⟩ := List.mem_iff_getElem.mp hmem
    rw [List.getElem_take] at hget
    exact hbefore j (by omega) (by rw [hget, beq_self_eq_true])

/-- The fields are those of the form `ip/path#`. -/
theorem fieldsOf_eq_some_iff : fieldsOf line = some (ip, path) ↔
    ∃ rest, line = ip ++ 0x2F :: (path ++ 0x23 :: rest) ∧ 0x2F ∉ ip ∧ 0x23 ∉ path := by
  constructor
  · intro h
    obtain ⟨p, hp, h⟩ := Option.bind_eq_some_iff.mp h
    obtain ⟨e, he, h⟩ := Option.bind_eq_some_iff.mp h
    obtain ⟨rfl, rfl⟩ := Prod.mk.inj (Option.some.inj h)
    obtain ⟨hline, hslash, -⟩ := eq_append_of_findIdx? hp
    obtain ⟨hrest, hhash, -⟩ := eq_append_of_findIdx? he
    refine ⟨(line.drop (p + 1)).drop (e + 1), ?_, hslash, hhash⟩
    rw [← hrest]
    exact hline
  · rintro ⟨rest, rfl, hslash, hhash⟩
    have hdrop : (ip ++ 0x2F :: (path ++ 0x23 :: rest)).drop (ip.length + 1)
        = path ++ 0x23 :: rest := by
      rw [List.drop_append, List.drop_eq_nil_of_le (by omega), Nat.add_sub_cancel_left]
      rfl
    rw [fieldsOf, findIdx?_eq_some_of_append hslash]
    simp only [Option.bind_eq_bind, Option.bind_some, hdrop, findIdx?_eq_some_of_append hhash,
      List.take_left]

/-- The fields are found in any text that starts with the line. -/
theorem fieldsOf_append (h : fieldsOf line = some (ip, path)) (more : List UInt8) :
    fieldsOf (line ++ more) = some (ip, path) := by
  obtain ⟨rest, rfl, hslash, hhash⟩ := fieldsOf_eq_some_iff.mp h
  refine fieldsOf_eq_some_iff.mpr ⟨rest ++ more, ?_, hslash, hhash⟩
  simp only [List.append_assoc, List.cons_append]

/-- A line that is cut behind its `#` has the same fields. -/
theorem fieldsOf_take {n : Nat} (h : fieldsOf line = some (ip, path))
    (hn : ip.length + path.length + 2 ≤ n) : fieldsOf (line.take n) = some (ip, path) := by
  obtain ⟨rest, rfl, hslash, hhash⟩ := fieldsOf_eq_some_iff.mp h
  have hfront : ip ++ 0x2F :: (path ++ 0x23 :: rest) = (ip ++ 0x2F :: (path ++ [0x23])) ++ rest := by
    simp only [List.append_assoc, List.cons_append, List.nil_append]
  have hlen : (ip ++ 0x2F :: (path ++ [0x23])).length = ip.length + path.length + 2 := by
    simp only [List.length_append, List.length_cons, List.length_nil]
    omega
  refine fieldsOf_eq_some_iff.mpr ⟨rest.take (n - (ip.length + path.length + 2)), ?_, hslash, hhash⟩
  rw [hfront, List.take_append, List.take_of_length_le (by omega), hlen]
  simp only [List.append_assoc, List.cons_append, List.nil_append]

theorem fieldsOf_length (h : fieldsOf line = some (ip, path)) :
    ip.length + path.length + 2 ≤ line.length := by
  obtain ⟨rest, rfl, -, -⟩ := fieldsOf_eq_some_iff.mp h
  simp only [List.length_append, List.length_cons]
  omega

theorem fieldsOf_nul (h : fieldsOf line = some (ip, path)) (hnul : 0 ∉ line) :
    0 ∉ ip ∧ 0 ∉ path := by
  obtain ⟨rest, rfl, -, -⟩ := fieldsOf_eq_some_iff.mp h
  simp only [List.mem_append, List.mem_cons, not_or] at hnul
  exact ⟨hnul.1, hnul.2.2.1⟩

/-- A newline at the end does not change the fields. -/
theorem fieldsOf_newline (line : List UInt8) : fieldsOf (line ++ [0x0A]) = fieldsOf line := by
  cases h : fieldsOf line with
  | some fields => exact fieldsOf_append h [0x0A]
  | none =>
    by_contra hne
    obtain ⟨⟨ip, path⟩, hsome⟩ := Option.ne_none_iff_exists'.mp hne
    obtain ⟨rest, heq, -, -⟩ := fieldsOf_eq_some_iff.mp hsome
    -- the `#` is not the newline, so it stands in the line
    have hrest : rest ≠ [] := by
      rintro rfl
      have hlast := congrArg List.getLast? heq
      rw [List.getLast?_concat, ← List.cons_append, ← List.append_assoc,
        List.getLast?_concat] at hlast
      exact absurd (Option.some.inj hlast) (by decide)
    have hpos : 0 < rest.length := List.length_pos_iff.mpr hrest
    have hlen := congrArg List.length heq
    simp only [List.length_append, List.length_cons, List.length_nil] at hlen
    have htake := fieldsOf_take hsome (show ip.length + path.length + 2 ≤ line.length by omega)
    rw [List.take_left, h] at htake
    cases htake

end Fields

/-! ## A turn of the loop -/

section Turn

variable {s line ip path : List UInt8}

/-- In a text without NUL, `strchr` looks at all of it. -/
theorem strchr_eq (hnul : 0 ∉ s) (c : UInt8) : strchr s c = s.findIdx? (· == c) := by
  have hnonnul : ∀ b ∈ s, (b != 0) = true := by
    intro b hb
    rw [bne_iff_ne]
    rintro rfl
    exact hnul hb
  have hall := @List.takeWhile_append_of_pos _ _ s [] hnonnul
  rw [List.append_nil, List.takeWhile_nil, List.append_nil] at hall
  rw [strchr, hall]

/-- The address part is copied first; then the line counts if it has fields. -/
theorem parseLine_eq (hnul : 0 ∉ s) (hlen : s.length ≤ buffSize - 1) :
    parseLine s = match s.findIdx? (· == 0x2F) with
      | none => some none
      | some p =>
        if p ≤ coapIpLen then some ((fieldsOf s).map fun (ip, path) => entry ip path) else none := by
  have hbuff : buffSize - 1 = 127 := rfl
  rw [parseLine, strchr_eq hnul, fieldsOf]
  cases hp : s.findIdx? (· == 0x2F) with
  | none => rfl
  | some p =>
    obtain ⟨-, -, htake⟩ := eq_append_of_findIdx? hp
    have hnul' : 0 ∉ s.drop (p + 1) := fun h => hnul (List.mem_of_mem_drop h)
    simp only [Option.bind_eq_bind, Option.bind_some]
    by_cases hle : p ≤ coapIpLen
    · rw [if_pos hle, putAt_zeros (by omega), strchr_eq hnul']
      simp only [Option.bind_some]
      cases he : (s.drop (p + 1)).findIdx? (· == 0x23) with
      | none => rfl
      | some e =>
        obtain ⟨-, -, htake'⟩ := eq_append_of_findIdx? he
        have hfit : ((s.drop (p + 1)).take e).length ≤ coapPathLen := by
          rw [List.length_take, List.length_drop]
          show min e (s.length - (p + 1)) ≤ 128
          omega
        simp only [putAt_zeros hfit, Option.bind_some, Option.map_some]
        rfl
    · -- more than 64 bytes leave the array
      rw [if_neg hle, putAt, if_neg]
      · rfl
      · rw [List.length_replicate]
        omega

/-- The newline at the end of a piece does not count. -/
theorem parseLine_newline (hnul : 0 ∉ s) (hlen : s.length < buffSize - 1) :
    parseLine (s ++ [0x0A]) = parseLine s := by
  have hfind : (s ++ [0x0A]).findIdx? (· == 0x2F) = s.findIdx? (· == 0x2F) := by
    rw [List.findIdx?_append]
    cases s.findIdx? (· == 0x2F) <;> rfl
  rw [parseLine_eq (by simpa using hnul) (by rw [List.length_append, List.length_singleton]; omega),
    parseLine_eq hnul (by omega), hfind, fieldsOf_newline]

/-- The entry of a piece, if there is one. -/
def parsed (s : List UInt8) : List CoapIP := (parseLine s).join.toList

/-- A mark for a piece that leaves its arrays. -/
def faults (s : List UInt8) : List Unit := if parseLine s = none then [()] else []

theorem parsed_eq (hnul : 0 ∉ s) (hlen : s.length ≤ buffSize - 1) (hok : parseLine s ≠ none) :
    parsed s = ((fieldsOf s).map fun (ip, path) => entry ip path).toList := by
  rw [parseLine_eq hnul hlen] at hok
  rw [parsed, parseLine_eq hnul hlen]
  cases hp : s.findIdx? (· == 0x2F) with
  | none => rw [fieldsOf, hp]; rfl
  | some p =>
    simp only [hp] at hok
    by_cases hle : p ≤ coapIpLen
    · simp only [if_pos hle, Option.join_some]
    · rw [if_neg hle] at hok
      exact absurd rfl hok

theorem parseLine_ne_none_iff (hnul : 0 ∉ s) (hlen : s.length ≤ buffSize - 1) :
    parseLine s ≠ none ↔ ∀ p, s.findIdx? (· == 0x2F) = some p → p ≤ coapIpLen := by
  rw [parseLine_eq hnul hlen]
  cases s.findIdx? (· == 0x2F) with
  | none => simp
  | some p =>
    by_cases hle : p ≤ coapIpLen
    · simp [hle]
    · simp [hle]

end Turn

/-! ## fgets -/

section Reading

variable {line rest file : List UInt8} {n : Nat}

/-- A line without end in the next `n` bytes. -/
theorem fgetsChars_full (hnl : 0x0A ∉ line) (hle : n ≤ line.length) :
    fgetsChars n (line ++ rest) = (line.take n, false) := by
  induction n generalizing line with
  | zero => rfl
  | succ n ih =>
    cases line with
    | nil => cases hle
    | cons b line =>
      rw [List.mem_cons, not_or] at hnl
      rw [List.cons_append, fgetsChars, if_neg (Ne.symm hnl.1),
        ih hnl.2 (by rw [List.length_cons] at hle; omega)]
      rfl

/-- A line that ends in them. -/
theorem fgetsChars_newline (hnl : 0x0A ∉ line) (hlt : line.length < n) :
    fgetsChars n (line ++ 0x0A :: rest) = (line ++ [0x0A], false) := by
  induction line generalizing n with
  | nil =>
    obtain ⟨n, rfl⟩ := Nat.exists_eq_add_one.mpr hlt
    rw [List.nil_append, fgetsChars, if_pos rfl]
    rfl
  | cons b line ih =>
    obtain ⟨n, rfl⟩ := Nat.exists_eq_add_one.mpr (Nat.zero_lt_of_lt hlt)
    rw [List.mem_cons, not_or] at hnl
    rw [List.cons_append, fgetsChars, if_neg (Ne.symm hnl.1),
      ih hnl.2 (by rw [List.length_cons] at hlt; omega)]
    rfl

/-- The end of the file in them. -/
theorem fgetsChars_end (hnl : 0x0A ∉ line) (hlt : line.length < n) :
    fgetsChars n line = (line, true) := by
  induction line generalizing n with
  | nil =>
    obtain ⟨n, rfl⟩ := Nat.exists_eq_add_one.mpr hlt
    rfl
  | cons b line ih =>
    obtain ⟨n, rfl⟩ := Nat.exists_eq_add_one.mpr (Nat.zero_lt_of_lt hlt)
    rw [List.mem_cons, not_or] at hnl
    rw [fgetsChars, if_neg (Ne.symm hnl.1), ih hnl.2 (by rw [List.length_cons] at hlt; omega)]

/-- A file is one line, or a line, a newline and the others. -/
theorem fileLines_cases (file : List UInt8) :
    (0x0A ∉ file ∧ fileLines file = [file]) ∨
    ∃ line rest, 0x0A ∉ line ∧ file = line ++ 0x0A :: rest ∧
      fileLines file = line :: fileLines rest := by
  by_cases h : 0x0A ∈ file
  · obtain ⟨line, rest, rfl, hnl⟩ := List.eq_append_cons_of_mem h
    exact Or.inr ⟨line, rest, hnl, rfl, List.splitOn_append_cons_self_of_not_mem hnl rest⟩
  · exact Or.inl ⟨h, List.splitOn_eq_singleton h⟩

/-- The buffer is full before the line ends. -/
theorem readLines_full (fuel : Nat) (hnl : 0x0A ∉ line) (hle : buffSize - 1 ≤ line.length) :
    readLines (fuel + 1) (line ++ rest)
      = line.take (buffSize - 1) :: readLines fuel (line.drop (buffSize - 1) ++ rest) := by
  have hbuff : buffSize - 1 = 127 := rfl
  have hlen : (line.take (buffSize - 1)).length = buffSize - 1 := by
    rw [List.length_take]
    omega
  have hne : line.take (buffSize - 1) ≠ [] := List.ne_nil_of_length_pos (by omega)
  rw [readLines, fgets, fgetsChars_full hnl hle]
  simp only [if_neg hne, hlen, Bool.false_eq_true, if_false]
  rw [List.drop_append_of_le_length hle]
  rfl

/-- The line is read with its newline. -/
theorem readLines_newline (fuel : Nat) (hnl : 0x0A ∉ line) (hlt : line.length < buffSize - 1) :
    readLines (fuel + 1) (line ++ 0x0A :: rest) = (line ++ [0x0A]) :: readLines fuel rest := by
  have hne : line ++ [0x0A] ≠ [] := by simp
  have hdrop : (line ++ 0x0A :: rest).drop (line ++ [0x0A]).length = rest := by
    rw [List.length_append, List.length_singleton, List.append_cons, List.drop_left' (by simp)]
  rw [readLines, fgets, fgetsChars_newline hnl hlt]
  simp only [if_neg hne, hdrop, Bool.false_eq_true, if_false]
  rfl

/-- The rest of the file is read, if there is one. -/
theorem readLines_end (fuel : Nat) (hnl : 0x0A ∉ line) (hlt : line.length < buffSize - 1) :
    readLines (fuel + 1) line = if line = [] then [] else [line] := by
  rw [readLines, fgets, fgetsChars_end hnl hlt]
  simp only [if_true, List.append_nil]
  split <;> rfl

/-- What is computed from the strings that `fgets` returns, is computed from the pieces of the
    lines, if newlines do not count. -/
theorem readLines_flatMap {β : Type} {f : List UInt8 → List β} (hnil : f [] = [])
    (hf : ∀ s, 0 ∉ s → s.length < buffSize - 1 → f (s ++ [0x0A]) = f s) {fuel : Nat}
    (hnul : 0 ∉ file) (hfuel : file.length < fuel) :
    (readLines fuel file).flatMap f
      = (fileLines file).flatMap fun line => (pieces (buffSize - 1) line).flatMap f := by
  have hpos : 0 < buffSize - 1 := by decide
  have hshort : ∀ line : List UInt8, line.length < buffSize - 1 →
      (pieces (buffSize - 1) line).flatMap f = f line := by
    intro line hlt
    rw [flatMap_pieces hpos f hnil, List.take_of_length_le (by omega),
      List.drop_eq_nil_of_le (by omega), pieces_nil hpos, List.flatMap_nil, List.append_nil]
  induction fuel generalizing file with
  | zero => omega
  | succ fuel ih =>
    -- by the end of the file's first line, and by whether it is in the buffer
    rcases fileLines_cases file with ⟨hnl, hlines⟩ | ⟨line, rest, hnl, rfl, hlines⟩
    · rw [hlines, List.flatMap_singleton]
      by_cases hlt : file.length < buffSize - 1
      · rw [readLines_end fuel hnl hlt, hshort file hlt]
        split
        · next hfile => rw [hfile, hnil, List.flatMap_nil]
        · rw [List.flatMap_singleton]
      · have hdrop : fileLines (file.drop (buffSize - 1)) = [file.drop (buffSize - 1)] :=
          List.splitOn_eq_singleton fun h => hnl (List.mem_of_mem_drop h)
        have hrest := @ih (file.drop (buffSize - 1)) (fun h => hnul (List.mem_of_mem_drop h))
          (by rw [List.length_drop]; omega)
        rw [hdrop, List.flatMap_singleton] at hrest
        have hfull := @readLines_full file [] fuel hnl (by omega)
        rw [List.append_nil, List.append_nil] at hfull
        rw [hfull, List.flatMap_cons, hrest, flatMap_pieces hpos f hnil file]
    · rw [List.mem_append, List.mem_cons, not_or, not_or] at hnul
      rw [List.length_append, List.length_cons] at hfuel
      rw [hlines, List.flatMap_cons]
      by_cases hlt : line.length < buffSize - 1
      · rw [readLines_newline fuel hnl hlt, List.flatMap_cons, hf line hnul.1 hlt, hshort line hlt,
          ih hnul.2.2 (by omega)]
      · have hnl' : 0x0A ∉ line.drop (buffSize - 1) := fun h => hnl (List.mem_of_mem_drop h)
        have hrest := @ih (line.drop (buffSize - 1) ++ 0x0A :: rest)
          (by
            rw [List.mem_append, List.mem_cons, not_or, not_or]
            exact ⟨fun h => hnul.1 (List.mem_of_mem_drop h), hnul.2⟩)
          (by rw [List.length_append, List.length_drop, List.length_cons]; omega)
        rw [fileLines, List.splitOn_append_cons_self_of_not_mem hnl', List.flatMap_cons] at hrest
        rw [readLines_full fuel hnl (by omega), List.flatMap_cons, hrest,
          flatMap_pieces hpos f hnil line, List.append_assoc]
        rfl

theorem readLines_length_le (fuel : Nat) (file : List UInt8) :
    (readLines fuel file).length ≤ fuel := by
  induction fuel generalizing file with
  | zero => exact Nat.le_refl 0
  | succ fuel ih =>
    have hrest := ih (fgets buffSize file).2.1
    have hone : (fgets buffSize file).1.toList.length ≤ 1 := by
      cases (fgets buffSize file).1 with
      | none => exact Nat.zero_le 1
      | some s => exact Nat.le_refl 1
    rw [readLines]
    simp only [List.length_append]
    split
    · exact Nat.le_trans (Nat.add_le_add_right hone 0) (Nat.succ_le_succ (Nat.zero_le fuel))
    · rw [Nat.add_comm fuel 1]
      exact Nat.add_le_add hone hrest

/-- A turn that does not meet the end of the file takes something off it. -/
theorem fgets_shrinks (h : (fgets buffSize file).2.2 ≠ true) :
    (fgets buffSize file).2.1.length < file.length := by
  cases file with
  | nil => exact absurd rfl h
  | cons b bs =>
    have hpos : 0 < (fgetsChars (buffSize - 1) (b :: bs)).1.length := by
      show 0 < (fgetsChars 127 (b :: bs)).1.length
      rw [fgetsChars]
      split
      · exact Nat.zero_lt_one
      · exact Nat.zero_lt_succ _
    rw [fgets]
    simp only [List.length_drop, List.length_cons]
    omega

end Reading

/-! ## ParsTxt -/

section Runs

variable {iplist : IpList} {t : Sequence Unit CoapIP} {addrs : List Addr} {file : List UInt8}

/-- A turn comes to an end if its line fits. -/
theorem parsTxtTurn_total {allocs : List (Option Addr)} {s : Option (List UInt8)}
    (hR : Holds iplist t) (hfresh : FreshAll iplist.heap allocs)
    (hok : ∀ l ∈ s.toList, parseLine l ≠ none) :
    ∃ r, parsTxtTurn allocs s iplist = some r := by
  cases s with
  | none => exact ⟨_, rfl⟩
  | some s =>
    obtain ⟨line, hline⟩ := Option.ne_none_iff_exists'.mp (hok s (List.mem_singleton_self s))
    rw [parsTxtTurn, hline]
    cases line with
    | none => exact ⟨_, rfl⟩
    | some x =>
      obtain ⟨iplist', happend, -, -⟩ := @appendEntry_holds _ _ _ x hR hfresh
      refine ⟨(allocs.tail, iplist'), ?_⟩
      simp only [Option.bind_eq_bind, Option.bind_some, happend]

/-- So does the loop, at the end of the file. -/
theorem parsTxtLoop_total {allocs : List (Option Addr)} {fuel : Nat} (hR : Holds iplist t)
    (hfresh : FreshAll iplist.heap allocs) (hfuel : file.length < fuel)
    (hok : ∀ s ∈ readLines fuel file, parseLine s ≠ none) :
    ∃ iplist', parsTxtLoop fuel allocs file iplist = some iplist' := by
  induction fuel generalizing allocs file iplist t with
  | zero => omega
  | succ fuel ih =>
    rw [readLines] at hok
    simp only [List.mem_append] at hok
    obtain ⟨⟨allocs₁, iplist₁⟩, hturn⟩ :=
      parsTxtTurn_total hR hfresh fun l hl => hok l (Or.inl hl)
    obtain ⟨-, hfresh₁, cells, hR₁, -⟩ := parsTxtTurn_holds hR hfresh hturn
    rw [parsTxtLoop_succ, hturn]
    simp only [Option.bind_some]
    by_cases heof : (fgets buffSize file).2.2 = true
    · exact ⟨iplist₁, if_pos heof⟩
    · have hshrinks := fgets_shrinks heof
      rw [if_neg heof]
      refine ih hR₁ hfresh₁ (by omega) fun s hs => hok s (Or.inr ?_)
      rw [if_neg heof]
      exact hs

/-- So does `ParsTxt`. -/
theorem parsTxt_total {allocs : List (Option Addr)} (hR : Holds iplist t)
    (hfree : ∀ a, some a ∈ allocs → iplist.heap a = none ∨ a ∈ t.cells.map Prod.fst)
    (hnodup : (allocs.filterMap id).Nodup) (hok : ∀ s ∈ linesOf file, parseLine s ≠ none) :
    ∃ iplist', parsTxt allocs file iplist = some iplist' := by
  obtain ⟨iplist₁, hempty⟩ : ∃ iplist₁, emptyTable iplist = some iplist₁ := by
    rw [emptyTable]
    split
    · obtain ⟨iplist₁, hclean, -⟩ := listClean_spec hR
      exact ⟨iplist₁, hclean⟩
    · exact ⟨iplist, rfl⟩
  obtain ⟨hR₁, hfresh⟩ := emptyTable_holds hR hfree hnodup hempty
  obtain ⟨iplist', hloop⟩ := parsTxtLoop_total hR₁ hfresh (Nat.lt_succ_self _) hok
  rw [parsTxt, hempty]
  exact ⟨iplist', hloop⟩

/-- The entries of the strings that are read are those of the pieces. -/
theorem entriesOf_linesOf (hnul : 0 ∉ file) : entriesOf (linesOf file)
    = (fileLines file).flatMap fun line => (pieces (buffSize - 1) line).flatMap parsed := by
  rw [← @readLines_flatMap file _ parsed rfl
    (fun s hs hlen => by rw [parsed, parseLine_newline hs hlen, parsed]) _ hnul
    (Nat.lt_succ_self _)]
  exact List.filterMap_eq_flatMap_toList _ _

/-- And so are the faults. -/
theorem linesOf_ok_iff (hnul : 0 ∉ file) : (∀ s ∈ linesOf file, parseLine s ≠ none) ↔
    ∀ line ∈ fileLines file, ∀ s ∈ pieces (buffSize - 1) line, parseLine s ≠ none := by
  have hflat := @readLines_flatMap file _ faults rfl
    (fun s hs hlen => by rw [faults, parseLine_newline hs hlen, faults]) _ hnul
    (Nat.lt_succ_self file.length)
  have hnil : ∀ ls : List (List UInt8),
      ls.flatMap faults = [] ↔ ∀ s ∈ ls, parseLine s ≠ none := by
    intro ls
    simp [List.flatMap_eq_nil_iff, faults]
  rw [linesOf, ← hnil, hflat]
  simp only [List.flatMap_eq_nil_iff, hnil]

/-- There is a node for every entry of the file. -/
theorem placed_entriesOf {addrs : List Addr} (henough : file.length < addrs.length) :
    (placed (addrs.map some) (entriesOf (linesOf file))).map Prod.snd
      = entriesOf (linesOf file) := by
  have hcount := List.length_filterMap_le (fun s => (parseLine s).join) (linesOf file)
  have hlines := readLines_length_le (file.length + 1) file
  exact placed_snd (Nat.le_trans hcount (Nat.le_trans hlines henough))

/-- `ParsTxt` is exact when no piece of a line leaves its arrays, and the entries of the pieces
    are those of the lines. -/
theorem exact_iff_pieces (hR : Holds iplist t)
    (hfree : ∀ a ∈ addrs, iplist.heap a = none ∨ a ∈ t.cells.map Prod.fst) (hnodup : addrs.Nodup)
    (henough : file.length < addrs.length) (hnul : 0 ∉ file) :
    Exact addrs file iplist ↔
      (∀ line ∈ fileLines file, ∀ s ∈ pieces (buffSize - 1) line, parseLine s ≠ none) ∧
      ((fileLines file).flatMap fun line => (pieces (buffSize - 1) line).flatMap parsed)
        = (fileLines file).filterMap tableEntry := by
  have hfree' : ∀ a, some a ∈ addrs.map some →
      iplist.heap a = none ∨ a ∈ t.cells.map Prod.fst := by
    intro a ha
    obtain ⟨a', ha', heq⟩ := List.mem_map.mp ha
    rw [← Option.some.inj heq]
    exact hfree a' ha'
  have hnodup' : ((addrs.map some).filterMap id).Nodup := by
    rw [List.filterMap_map]
    simpa using hnodup
  have hplaced := placed_entriesOf henough
  rw [← entriesOf_linesOf hnul, ← linesOf_ok_iff hnul]
  constructor
  · rintro ⟨iplist', t', hrun, hR', heq⟩
    obtain ⟨hok, hholds⟩ := parsTxt_holds hR hfree' hnodup' hrun
    rw [seg_unique hR'.cells.chain hholds.cells.chain, hplaced] at heq
    exact ⟨hok, heq⟩
  · rintro ⟨hok, heq⟩
    obtain ⟨iplist', hrun⟩ := parsTxt_total hR hfree' hnodup' hok
    exact ⟨iplist', _, hrun, (parsTxt_holds hR hfree' hnodup' hrun).2, hplaced.trans heq⟩

end Runs

/-! ## Lines and pieces -/

section Lines

variable {line ip path : List UInt8}

theorem linePiece_nul (hnul : 0 ∉ line) (i : Nat) : 0 ∉ linePiece line i :=
  fun h => hnul (mem_of_mem_piece h)

theorem fieldsOf_nil : fieldsOf [] = none := rfl

/-- No piece leaves its arrays when all address parts have at most 64 bytes. -/
theorem pieces_ok_iff (hnul : 0 ∉ line) :
    (∀ s ∈ pieces (buffSize - 1) line, parseLine s ≠ none) ↔
      ∀ i p, (linePiece line i).findIdx? (· == 0x2F) = some p → p ≤ coapIpLen := by
  have hpos : 0 < buffSize - 1 := by decide
  have hone : ∀ i, parseLine (linePiece line i) ≠ none ↔
      ∀ p, (linePiece line i).findIdx? (· == 0x2F) = some p → p ≤ coapIpLen :=
    fun i => parseLine_ne_none_iff (linePiece_nul hnul i) (piece_length_le _ line i)
  constructor
  · intro hok i
    by_cases hne : linePiece line i = []
    · intro p hp
      rw [hne] at hp
      cases hp
    · exact (hone i).mp (hok _ ((mem_pieces hpos).mpr ⟨hne, i, rfl⟩))
  · intro hips s hs
    obtain ⟨-, i, rfl⟩ := (mem_pieces hpos).mp hs
    exact (hone i).mpr (hips i)

/-- The entry of a piece that does not leave its arrays. -/
theorem parsed_linePiece (hnul : 0 ∉ line)
    (hips : ∀ i p, (linePiece line i).findIdx? (· == 0x2F) = some p → p ≤ coapIpLen) (i : Nat) :
    parsed (linePiece line i)
      = ((fieldsOf (linePiece line i)).map fun (ip, path) => entry ip path).toList :=
  parsed_eq (linePiece_nul hnul i) (piece_length_le _ line i)
    ((parseLine_ne_none_iff (linePiece_nul hnul i) (piece_length_le _ line i)).mpr (hips i))

/-- The entries of a line's pieces: those of the first one, and the later ones. -/
theorem parsed_pieces (line : List UInt8) :
    (pieces (buffSize - 1) line).flatMap parsed
      = parsed (linePiece line 0)
        ++ (pieces (buffSize - 1) (line.drop (buffSize - 1))).flatMap parsed := by
  rw [flatMap_pieces (by decide) parsed rfl line, linePiece, piece_zero]

/-- The later pieces give no entries when none of them looks like a line of the table. -/
theorem later_eq_nil_iff (hnul : 0 ∉ line)
    (hips : ∀ i p, (linePiece line i).findIdx? (· == 0x2F) = some p → p ≤ coapIpLen) :
    (pieces (buffSize - 1) (line.drop (buffSize - 1))).flatMap parsed = [] ↔
      ∀ i, 0 < i → fieldsOf (linePiece line i) = none := by
  have hpos : 0 < buffSize - 1 := by decide
  have hnil : ∀ i, parsed (linePiece line i) = [] ↔ fieldsOf (linePiece line i) = none := by
    intro i
    rw [parsed_linePiece hnul hips i]
    cases fieldsOf (linePiece line i) <;> simp
  rw [List.flatMap_eq_nil_iff]
  constructor
  · intro hall i hi
    obtain ⟨i, rfl⟩ := Nat.exists_eq_add_one.mpr hi
    by_cases hne : linePiece line (i + 1) = []
    · rw [hne, fieldsOf_nil]
    · exact (hnil _).mp (hall _ ((mem_pieces hpos).mpr ⟨hne, i, piece_succ _ line i⟩))
  · intro hall s hs
    obtain ⟨-, i, rfl⟩ := (mem_pieces hpos).mp hs
    have hi := (hnil (i + 1)).mpr (hall (i + 1) (Nat.zero_lt_succ i))
    rw [linePiece, piece_succ] at hi
    exact hi

/-- The first separators of a piece give the length of its address part. -/
theorem findIdx?_of_fieldsOf {s : List UInt8} (h : fieldsOf s = some (ip, path)) :
    s.findIdx? (· == 0x2F) = some ip.length := by
  obtain ⟨rest, rfl, hslash, -⟩ := fieldsOf_eq_some_iff.mp h
  exact findIdx?_eq_some_of_append hslash

theorem tableEntry_eq_some_iff {x : CoapIP} : tableEntry line = some x ↔
    ∃ ip path, fieldsOf line = some (ip, path) ∧ ip.length < coapIpLen ∧
      path.length < coapPathLen ∧ x = entry ip path := by
  rw [tableEntry]
  constructor
  · intro h
    obtain ⟨⟨ip, path⟩, hfields, h⟩ := Option.bind_eq_some_iff.mp h
    simp only at h
    split at h
    · next hfit => exact ⟨ip, path, hfields, hfit.1, hfit.2, (Option.some.inj h).symm⟩
    · cases h
  · rintro ⟨ip, path, hfields, hip, hpath, rfl⟩
    rw [hfields, Option.bind_some]
    exact if_pos ⟨hip, hpath⟩

/-- The fields of the first piece are those of the line. -/
theorem fieldsOf_first (h : fieldsOf (linePiece line 0) = some (ip, path)) :
    fieldsOf line = some (ip, path) ∧ ip.length + path.length + 2 ≤ buffSize - 1 := by
  have hlen := fieldsOf_length h
  have hle := piece_length_le (buffSize - 1) line 0
  rw [linePiece] at hlen
  rw [linePiece, piece_zero] at h
  refine ⟨?_, by omega⟩
  have happ := fieldsOf_append h (line.drop (buffSize - 1))
  rwa [List.take_append_drop] at happ

/-- A line whose `#` is in the first piece gives its entry first. -/
theorem tableEntry_prefix (hnul : 0 ∉ line)
    (hips : ∀ i p, (linePiece line i).findIdx? (· == 0x2F) = some p → p ≤ coapIpLen)
    (hfirst : ∀ ip path, fieldsOf line = some (ip, path) → ip.length < coapIpLen →
      path.length < coapPathLen → ip.length + path.length + 2 ≤ buffSize - 1) :
    (tableEntry line).toList = parsed (linePiece line 0) ∨ tableEntry line = none := by
  cases hentry : tableEntry line with
  | none => exact Or.inr rfl
  | some x =>
    left
    obtain ⟨ip, path, hfields, hip, hpath, rfl⟩ := tableEntry_eq_some_iff.mp hentry
    have htake := fieldsOf_take hfields (hfirst ip path hfields hip hpath)
    rw [← piece_zero, ← linePiece] at htake
    rw [parsed_linePiece hnul hips, htake]
    rfl

/-- An address part of 64 bytes is that of no entry of the table. -/
theorem tableEntry_eq_none (hfields : fieldsOf line = some (ip, path)) (hip : coapIpLen ≤ ip.length) :
    tableEntry line = none := by
  rw [tableEntry, hfields, Option.bind_some]
  exact if_neg fun hfit => Nat.not_lt.mpr hip hfit.1

/-- The pieces of a line that is fine stay in their arrays. -/
theorem LineFine.le (hfine : LineFine line) (i p : Nat)
    (hp : (linePiece line i).findIdx? (· == 0x2F) = some p) : p ≤ coapIpLen := by
  rcases hfine.ips i p hp with hlt | ⟨heq, -⟩ <;> omega

/-- They give no entry, or that of the line. -/
theorem LineFine.count_le (hnul : 0 ∉ line) (hfine : LineFine line) :
    ((pieces (buffSize - 1) line).flatMap parsed).length ≤ (tableEntry line).toList.length := by
  rw [parsed_pieces, List.length_append, (later_eq_nil_iff hnul hfine.le).mpr hfine.later,
    List.length_nil, parsed_linePiece hnul hfine.le]
  cases hfields : fieldsOf (linePiece line 0) with
  | none => exact Nat.zero_le _
  | some fields =>
    obtain ⟨ip, path⟩ := fields
    obtain ⟨hline, hfit⟩ := fieldsOf_first hfields
    have hip : ip.length < coapIpLen := by
      refine (hfine.ips 0 _ (findIdx?_of_fieldsOf hfields)).resolve_right fun h => ?_
      rw [hfields] at h
      cases h.2
    have hpath : path.length < coapPathLen := by
      show path.length < 128
      have hbuff : buffSize - 1 = 127 := rfl
      omega
    rw [tableEntry_eq_some_iff.mpr ⟨ip, path, hline, hip, hpath, rfl⟩]
    exact Nat.le_refl _

/-- A line is fine when its pieces stay in their arrays and give no more entries than it has. -/
theorem lineFine_of_count (hnul : 0 ∉ line)
    (hfirst : ∀ ip path, fieldsOf line = some (ip, path) → ip.length < coapIpLen →
      path.length < coapPathLen → ip.length + path.length + 2 ≤ buffSize - 1)
    (hle : ∀ i p, (linePiece line i).findIdx? (· == 0x2F) = some p → p ≤ coapIpLen)
    (hcount : ((pieces (buffSize - 1) line).flatMap parsed).length
      ≤ (tableEntry line).toList.length) : LineFine line := by
  rw [parsed_pieces, List.length_append] at hcount
  -- an entry of the table takes the place of the first piece's, so there is no other
  have hlater : (pieces (buffSize - 1) (line.drop (buffSize - 1))).flatMap parsed = [] := by
    apply List.length_eq_zero_iff.mp
    rcases tableEntry_prefix hnul hle hfirst with heq | hnone
    · rw [heq] at hcount
      omega
    · rw [hnone, Option.toList_none, List.length_nil] at hcount
      omega
  have hlater' := (later_eq_nil_iff hnul hle).mp hlater
  refine ⟨fun i p hp => ?_, hlater', hfirst⟩
  rcases Nat.lt_or_eq_of_le (hle i p hp) with hlt | heq
  · exact Or.inl hlt
  refine Or.inr ⟨heq, ?_⟩
  by_cases hi : i = 0
  · subst hi
    cases hfields : fieldsOf (linePiece line 0) with
    | none => rfl
    | some fields =>
      exfalso
      obtain ⟨ip, path⟩ := fields
      obtain rfl : p = ip.length := Option.some.inj (hp.symm.trans (findIdx?_of_fieldsOf hfields))
      rw [tableEntry_eq_none (fieldsOf_first hfields).1 (Nat.le_of_eq heq.symm),
        parsed_linePiece hnul hle, hfields] at hcount
      exact Nat.not_succ_le_zero 0 (Nat.le_trans (Nat.le_add_right _ _) hcount)
  · exact hlater' i (Nat.pos_of_ne_zero hi)

/-- A line is read as what it stands for exactly when it is fine. -/
theorem lineFine_iff (hnul : 0 ∉ line)
    (hfirst : ∀ ip path, fieldsOf line = some (ip, path) → ip.length < coapIpLen →
      path.length < coapPathLen → ip.length + path.length + 2 ≤ buffSize - 1) :
    LineFine line ↔ (∀ s ∈ pieces (buffSize - 1) line, parseLine s ≠ none) ∧
      ((pieces (buffSize - 1) line).flatMap parsed).length ≤ (tableEntry line).toList.length := by
  rw [pieces_ok_iff hnul]
  constructor
  · intro hfine
    exact ⟨hfine.le, hfine.count_le hnul⟩
  · rintro ⟨hle, hcount⟩
    exact lineFine_of_count hnul hfirst hle hcount

/-- What is read of a line that is fine. -/
theorem LineFine.parsed_eq (hnul : 0 ∉ line) (hfine : LineFine line) :
    (pieces (buffSize - 1) line).flatMap parsed = (tableEntry line).toList := by
  obtain ⟨hok, hcount⟩ := (lineFine_iff hnul hfine.first).mp hfine
  rw [parsed_pieces] at hcount ⊢
  rcases tableEntry_prefix hnul ((pieces_ok_iff hnul).mp hok) hfine.first with heq | hnone
  · rw [List.length_append, heq] at hcount
    rw [List.length_eq_zero_iff.mp (show ((pieces (buffSize - 1)
      (line.drop (buffSize - 1))).flatMap parsed).length = 0 by omega), List.append_nil, heq]
  · rw [hnone] at hcount ⊢
    exact List.length_eq_zero_iff.mp (Nat.le_zero.mp hcount)

/-- A line that fits into the buffer, with an address part that fits into its array. -/
theorem LineFine.of_short (hlen : line.length ≤ buffSize - 1)
    (hip : ∀ p ∈ line.findIdx? (· == 0x2F), p < coapIpLen) : LineFine line := by
  have hzero : linePiece line 0 = line := by
    rw [linePiece, piece_zero, List.take_of_length_le hlen]
  have hbehind : ∀ i, 0 < i → linePiece line i = [] := by
    intro i hi
    have hmul := Nat.le_mul_of_pos_right (buffSize - 1) hi
    rw [linePiece, piece, List.drop_eq_nil_of_le (by omega), List.take_nil]
  refine ⟨fun i p hp => ?_, fun i hi => ?_, fun ip path hfields _ _ => ?_⟩
  · by_cases hi : i = 0
    · rw [hi, hzero] at hp
      exact Or.inl (hip p hp)
    · rw [hbehind i (by omega)] at hp
      cases hp
  · rw [hbehind i hi, fieldsOf_nil]
  · have hle := fieldsOf_length hfields
    omega

end Lines

/-! ## Files -/

/-- Parts that are not longer, of a list that is not shorter, are not shorter. -/
theorem length_le_of_flatMap {α β : Type} {f g : α → List β} {l : List α}
    (hle : ∀ a ∈ l, (g a).length ≤ (f a).length)
    (h : (l.flatMap f).length ≤ (l.flatMap g).length) {a : α} (ha : a ∈ l) :
    (f a).length ≤ (g a).length := by
  have hsum : ∀ l' : List α, (∀ a ∈ l', (g a).length ≤ (f a).length) →
      (l'.flatMap g).length ≤ (l'.flatMap f).length := by
    intro l' hle'
    induction l' with
    | nil => exact Nat.le_refl 0
    | cons b l' ih =>
      rw [List.flatMap_cons, List.flatMap_cons, List.length_append, List.length_append]
      exact Nat.add_le_add (hle' b (List.mem_cons_self ..))
        (ih fun a ha => hle' a (List.mem_cons_of_mem _ ha))
  obtain ⟨front, back, rfl⟩ := List.append_of_mem ha
  have hfront := hsum front fun a ha => hle a (List.mem_append_left _ ha)
  have hback := hsum back fun a ha =>
    hle a (List.mem_append_right _ (List.mem_cons_of_mem _ ha))
  simp only [List.flatMap_append, List.flatMap_cons, List.length_append] at h
  omega

/-- The number of characters in the fields of an entry. -/
def textSize (x : CoapIP) : Nat :=
  (x.ip.filter (· != 0)).length + (x.path.filter (· != 0)).length

theorem filter_padded {k : Nat} {text : List UInt8} (hnul : 0 ∉ text) :
    (padded k text).filter (· != 0) = text := by
  have hall : text.filter (· != 0) = text := by
    refine List.filter_eq_self.mpr fun b hb => ?_
    rw [bne_iff_ne]
    rintro rfl
    exact hnul hb
  rw [padded, List.filter_append, hall, List.filter_replicate_of_neg (by decide), List.append_nil]

theorem textSize_entry {ip path : List UInt8} (hip : 0 ∉ ip) (hpath : 0 ∉ path) :
    textSize (entry ip path) = ip.length + path.length := by
  rw [textSize, entry, filter_padded hip, filter_padded hpath]

section Files

variable {iplist : IpList} {t : Sequence Unit CoapIP} {addrs : List Addr} {file : List UInt8}

theorem nul_not_mem_line {line : List UInt8} (hnul : 0 ∉ file) (h : line ∈ fileLines file) :
    0 ∉ line := by
  induction hn : file.length using Nat.strongRecOn generalizing file with
  | _ n ih =>
    rcases fileLines_cases file with ⟨-, hlines⟩ | ⟨line', rest, -, rfl, hlines⟩
    · rw [hlines, List.mem_singleton] at h
      rw [h]
      exact hnul
    · rw [List.mem_append, List.mem_cons, not_or, not_or] at hnul
      rw [hlines, List.mem_cons] at h
      rw [List.length_append, List.length_cons] at hn
      rcases h with rfl | h
      · exact hnul.1
      · exact ih rest.length (by omega) hnul.2.2 h rfl

/-- The fields of an entry that is read stand in one piece. -/
theorem textSize_le {x : CoapIP} {line : List UInt8} (hnul : 0 ∉ line)
    (hok : ∀ s ∈ pieces (buffSize - 1) line, parseLine s ≠ none)
    (hx : x ∈ (pieces (buffSize - 1) line).flatMap parsed) : textSize x + 2 ≤ buffSize - 1 := by
  obtain ⟨s, hs, hx⟩ := List.mem_flatMap.mp hx
  obtain ⟨-, i, rfl⟩ := (mem_pieces (by decide)).mp hs
  rw [← linePiece, parsed_linePiece hnul ((pieces_ok_iff hnul).mp hok), Option.mem_toList,
    Option.map_eq_some_iff] at hx
  obtain ⟨⟨ip, path⟩, hfields, rfl⟩ := hx
  obtain ⟨hip, hpath⟩ := fieldsOf_nul hfields (linePiece_nul hnul i)
  have hlen := fieldsOf_length hfields
  have hle := piece_length_le (buffSize - 1) line i
  rw [linePiece] at hlen
  simp only [textSize_entry hip hpath]
  omega

/-- `ParsTxt` is exact for the files whose lines are all read as what they stand for. -/
theorem parsTxt_exact_iff (hR : Holds iplist t)
    (hfree : ∀ a ∈ addrs, iplist.heap a = none ∨ a ∈ t.cells.map Prod.fst) (hnodup : addrs.Nodup)
    (henough : file.length < addrs.length) (hnul : 0 ∉ file) :
    Exact addrs file iplist ↔ ∀ line ∈ fileLines file, LineFine line := by
  rw [exact_iff_pieces hR hfree hnodup henough hnul, List.filterMap_eq_flatMap_toList]
  have hnuls : ∀ line ∈ fileLines file, 0 ∉ line := fun line => nul_not_mem_line hnul
  constructor
  · rintro ⟨hok, heq⟩
    -- no entry of the table is longer than a piece, as none that is read is
    have hfirst : ∀ line ∈ fileLines file, ∀ ip path, fieldsOf line = some (ip, path) →
        ip.length < coapIpLen → path.length < coapPathLen →
        ip.length + path.length + 2 ≤ buffSize - 1 := by
      intro line hline ip path hfields hip hpath
      have hmem : entry ip path ∈ (fileLines file).flatMap fun line => (tableEntry line).toList := by
        refine List.mem_flatMap.mpr ⟨line, hline, Option.mem_toList.mpr ?_⟩
        exact tableEntry_eq_some_iff.mpr ⟨ip, path, hfields, hip, hpath, rfl⟩
      rw [← heq] at hmem
      obtain ⟨line', hline', hx⟩ := List.mem_flatMap.mp hmem
      have hsize := textSize_le (hnuls line' hline') (hok line' hline') hx
      obtain ⟨hip', hpath'⟩ := fieldsOf_nul hfields (hnuls line hline)
      rwa [textSize_entry hip' hpath'] at hsize
    -- the entries of the table are among those that are read, and there are as many
    intro line hline
    refine (lineFine_iff (hnuls line hline) (hfirst line hline)).mpr ⟨hok line hline, ?_⟩
    refine length_le_of_flatMap (fun line hline => ?_) (Nat.le_of_eq (congrArg List.length heq))
      hline
    have hips := (pieces_ok_iff (hnuls line hline)).mp (hok line hline)
    rcases tableEntry_prefix (hnuls line hline) hips (hfirst line hline) with hone | hnone
    · rw [hone, parsed_pieces, List.length_append]
      omega
    · rw [hnone]
      exact Nat.zero_le _
  · intro hfine
    refine ⟨fun line hline => ?_, ?_⟩
    · exact ((lineFine_iff (hnuls line hline) (hfine line hline).first).mp (hfine line hline)).1
    · rw [List.flatMap, List.flatMap,
        List.map_congr_left fun line hline => (hfine line hline).parsed_eq (hnuls line hline)]

end Files

/-! ## Two files -/

/-- `iplist` after `list_init`. -/
def newIpList : IpList := initState (fun _ => none) (some fun _ _ => ()) ()

theorem newIpList_holds :
    Holds newIpList { cells := [], destroy := some fun _ _ => (), out := () } :=
  ⟨cells_listInit _, rfl, rfl⟩

/-- An entry and a comment. -/
def twoLines : List UInt8 :=
  cstr ['1', '0', '.', '0', '.', '0', '.', '2', '/', 'l', 'e', 'd', '#', '\n', '#', ' ', 'a', '/',
    'b', '\n']

theorem parsTxt_exact_iff_twoLines : Exact (List.range 21) twoLines newIpList := by
  refine (parsTxt_exact_iff newIpList_holds (fun _ _ => Or.inl rfl) List.nodup_range (by decide)
    (by decide)).mpr fun line hline => ?_
  have hall : ∀ line ∈ fileLines twoLines, line.length ≤ buffSize - 1 ∧
      ∀ p ∈ line.findIdx? (· == 0x2F), p < coapIpLen := by
    decide
  exact LineFine.of_short (hall line hline).1 (hall line hline).2

/-- A line of the table behind 127 other characters: its address part does not fit, but `fgets`
    takes `a/b#` for a line of its own. -/
def longLine : List UInt8 := List.replicate 127 0x78 ++ cstr ['a', '/', 'b', '#', '\n']

/-- The text up to the slash is copied whatever its length, and a piece of a line that does not
    fit gives an entry. -/
theorem not_exact_examples :
    parsTxt ((List.range 70).map some) (List.replicate 65 0x78 ++ [0x2F]) newIpList = none ∧
    ¬ Exact (List.range 70) (List.replicate 65 0x78 ++ [0x2F]) newIpList ∧
    (fileLines longLine).filterMap tableEntry = [] ∧
    (parsTxt ((List.range 140).map some) longLine newIpList).map (fun s => s.list.size)
      = some 1 ∧
    ¬ Exact (List.range 140) longLine newIpList := by
  have hfault : (parsTxt ((List.range 70).map some) (List.replicate 65 0x78 ++ [0x2F])
      newIpList).isNone = true := by
    decide +kernel
  rw [Option.isNone_iff_eq_none] at hfault
  have hspec : (fileLines longLine).filterMap tableEntry = [] := by decide +kernel
  have hone : (parsTxt ((List.range 140).map some) longLine newIpList).map (fun s => s.list.size)
      = some 1 := by
    decide +kernel
  refine ⟨hfault, ?_, hspec, hone, ?_⟩
  · rintro ⟨iplist', t, hrun, -⟩
    rw [hfault] at hrun
    cases hrun
  · rintro ⟨iplist', t, hrun, hR, hcells⟩
    rw [hrun, Option.map_some] at hone
    have hsize := hR.cells.size_eq
    rw [Option.some.inj hone] at hsize
    have hlen := congrArg List.length hcells
    rw [hspec, List.length_map, List.length_nil] at hlen
    omega

end Gateway.Iptable.TableText
