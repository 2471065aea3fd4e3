/-
  Gateway.Sqlite.InsertDb

  The statement that `Insert_db` (`sqlite/sqlite.c`) builds for a frame of the UART.

  `sprintf` puts the time and the frame between the quotes of a template, in an array
  of 512 bytes.  Two things are not looked at: whether the text with its NUL fits into
  the array, and whether the frame has a quote.  `readInsert` reads such a statement
  by the rule for literals (`Gateway.Lib.Quoting`).
-/

import Gateway.Lib.CString
import Gateway.Lib.Quoting
import Gateway.Uart.ReadThread

namespace Gateway.Sqlite.InsertDb

open Gateway.Lib.ByteWindow Gateway.Lib.CString Gateway.Lib.Quoting
open Gateway.Uart.ReadThread

/-! ## The time -/

/-- A broken-down time that `ctime` writes in 25 characters. -/
structure Tm where
  wday : Fin 7
  mon : Fin 12
  mday : Fin 32
  hour : Fin 24
  min : Fin 60
  sec : Fin 61
  year : Nat
  year_ge : 1000 ≤ year
  year_lt : year < 10000

/-- The names of the days, from Sunday on. -/
def wdayName (wday : Fin 7) : List UInt8 :=
  slice (cstr "SunMonTueWedThuFriSat".toList) (3 * wday) 3

/-- The names of the months. -/
def monName (mon : Fin 12) : List UInt8 :=
  slice (cstr "JanFebMarAprMayJunJulAugSepOctNovDec".toList) (3 * mon) 3

/-- The digit for the ones of a number. -/
def digit (n : Nat) : UInt8 := 0x30 + UInt8.ofNat (n % 10)

/-- Two digits. -/
def twoDigits (n : Nat) : List UInt8 := [digit (n / 10), digit n]

/-- The text of `ctime`, with its line feed and without the NUL. -/
def ctimeText (t : Tm) : List UInt8 :=
  wdayName t.wday ++ [0x20] ++ monName t.mon ++ [0x20]
    -- the day of the month has a space for a leading zero
    ++ [if t.mday.val < 10 then 0x20 else digit (t.mday.val / 10), digit t.mday.val] ++ [0x20]
    ++ twoDigits t.hour ++ [0x3A] ++ twoDigits t.min ++ [0x3A] ++ twoDigits t.sec ++ [0x20]
    ++ [digit (t.year / 1000), digit (t.year / 100), digit (t.year / 10), digit t.year] ++ [0x0A]

/-! ## Insert_db -/

/-- The size of `sql`. -/
def sqlLen : Nat := 512

/-- The quote of a string literal. -/
def quote : UInt8 := 0x27

/-- The template in front of the time. -/
def insertValues : List UInt8 := cstr "INSERT INTO COAPMSG (TIME,ID,MSG) VALUES (".toList

/-- The template between the time and the message. -/
def nullId : List UInt8 := cstr ", NULL, ".toList

/-- The template behind the message. -/
def endOfValues : List UInt8 := cstr "); ".toList

/-- What `sprintf` writes for these two strings, without the NUL. -/
def sqlText (time msg : List UInt8) : List UInt8 :=
  insertValues ++ [quote] ++ time ++ [quote] ++ nullId ++ [quote] ++ msg ++ [quote] ++ endOfValues

/-- `Insert_db` up to the call of `sqlite3_exec`: the array `sql`.  The message is the string at
    the start of `msg`; a text that does not fit into the array is written behind it. -/
def insertDb (t : Tm) (msg : List UInt8) : Option (List UInt8) := do
  let n ← strlen msg
  putAt (List.replicate sqlLen 0) 0 (sqlText (ctimeText t) (msg.take n) ++ [0])

/-! ## What the statement says -/

/-- A fixed text at the front. -/
def readText (text l : List UInt8) : Option (List UInt8) :=
  if l.take text.length = text then some (l.drop text.length) else none

/-- Reads one statement of the template: the values of TIME and MSG. -/
def readInsert (sql : List UInt8) : Option (List UInt8 × List UInt8) := do
  let l ← readText insertValues sql
  let (time, l) ← readLiteral quote l
  let l ← readText nullId l
  let (msg, l) ← readLiteral quote l
  -- only blanks stand behind the statement
  let l ← readText (cstr ");".toList) l
  if l.all (· == 0x20) then some (time, msg) else none

/-- The array that the reader of the UART passes on for a frame. -/
def frameBuf (frame : List UInt8) : List UInt8 := padded uartRdBufSize frame

/-- The statement for a frame fits into `sql`, ends with its NUL, and its MSG is the frame. -/
def LogsFrame (t : Tm) (frame : List UInt8) : Prop :=
  ∃ text, insertDb t (frameBuf frame) = some (padded sqlLen text) ∧
    strlen (padded sqlLen text) = some text.length ∧
    ∃ time, readInsert text = some (time, frame)

/-! ## The parts of the statement -/

section Text

theorem digit_range (n : Nat) : 0x30 ≤ (digit n).toNat ∧ (digit n).toNat ≤ 0x39 := by
  have hmod : n % 10 < 10 := Nat.mod_lt n (by decide)
  have hall : ∀ i : Fin 10, 0x30 ≤ (0x30 + UInt8.ofNat i.val).toNat
      ∧ (0x30 + UInt8.ofNat i.val).toNat ≤ 0x39 := by decide
  exact hall ⟨n % 10, hmod⟩

/-- No quote and no NUL. -/
def Plain (b : UInt8) : Prop := b ≠ quote ∧ b ≠ 0

instance : DecidablePred Plain := fun _ => inferInstanceAs (Decidable (_ ∧ _))

theorem plain_digit (n : Nat) : Plain (digit n) := by
  have hrange := digit_range n
  constructor
  · intro hc
    rw [hc] at hrange
    exact absurd hrange.1 (by decide)
  · intro hc
    rw [hc] at hrange
    exact absurd hrange.1 (by decide)

/-- The text of the time has neither. -/
theorem ctimeText_plain (t : Tm) : ∀ b ∈ ctimeText t, Plain b := by
  have hwday : ∀ w : Fin 7, ∀ b ∈ wdayName w, Plain b := by decide +kernel
  have hmon : ∀ m : Fin 12, ∀ b ∈ monName m, Plain b := by decide +kernel
  have hday : Plain (if t.mday.val < 10 then 0x20 else digit (t.mday.val / 10)) := by
    split
    · decide
    · exact plain_digit _
  have hspace : Plain 0x20 := by decide
  have hcolon : Plain 0x3A := by decide
  have hfeed : Plain 0x0A := by decide
  simp only [ctimeText, twoDigits, List.forall_mem_append, List.forall_mem_cons, plain_digit, hday,
    hspace, hcolon, hfeed, List.not_mem_nil, false_implies, implies_true, and_true]
  exact ⟨hwday _, hmon _⟩

theorem ctimeText_length (t : Tm) : (ctimeText t).length = 25 := by
  have hwday : ∀ w : Fin 7, (wdayName w).length = 3 := by decide
  have hmon : ∀ m : Fin 12, (monName m).length = 3 := by decide
  simp only [ctimeText, twoDigits, List.length_append, List.length_cons, List.length_nil, hwday, hmon]

theorem sqlText_length (time msg : List UInt8) :
    (sqlText time msg).length = 57 + time.length + msg.length := by
  have h1 : insertValues.length = 42 := by decide
  have h2 : nullId.length = 8 := by decide
  have h3 : endOfValues.length = 3 := by decide
  simp only [sqlText, List.length_append, List.length_singleton, h1, h2, h3]
  omega

/-- A statement of strings without a NUL has none. -/
theorem not_mem_sqlText {time msg : List UInt8} (htime : 0 ∉ time) (hmsg : 0 ∉ msg) :
    0 ∉ sqlText time msg := by
  have h1 : 0 ∉ insertValues := by decide
  have h2 : 0 ∉ nullId := by decide
  have h3 : 0 ∉ endOfValues := by decide
  have hq : 0 ∉ [quote] := by decide
  simp only [sqlText, List.mem_append, h1, h2, h3, hq, htime, hmsg, or_self, not_false_eq_true]

theorem readText_append (text rest : List UInt8) : readText text (text ++ rest) = some rest := by
  rw [readText, List.take_left, if_pos rfl, List.drop_left]

/-- The statement is read up to its message. -/
theorem readInsert_sqlText {time msg : List UInt8} (htime : quote ∉ time) :
    readInsert (sqlText time msg)
      = (readLiteral quote (quote :: (msg ++ quote :: endOfValues))).bind fun r =>
          (readText (cstr ");".toList) r.2).bind fun l =>
            if l.all (· == 0x20) then some (time, r.1) else none := by
  -- the comma behind the time closes its literal
  have hcomma : (nullId ++ (quote :: (msg ++ quote :: endOfValues))).head? = some 0x2C := rfl
  have hhead : (nullId ++ (quote :: (msg ++ quote :: endOfValues))).head? ≠ some quote := by
    rw [hcomma]
    decide
  have hlit := @readLiteral_literal _ _ quote time _ hhead
  rw [literal, doubled_of_not_mem htime] at hlit
  have hsql : sqlText time msg = insertValues ++ (quote :: (time ++ [quote])
      ++ (nullId ++ (quote :: (msg ++ quote :: endOfValues)))) := by
    simp only [sqlText, List.append_assoc, List.cons_append, List.nil_append]
  rw [readInsert, hsql, readText_append]
  simp only [Option.bind_eq_bind, Option.bind_some, hlit, readText_append]

/-- The reader gets the message back exactly when it has no quote. -/
theorem readInsert_iff {time msg : List UInt8} (htime : quote ∉ time) :
    (∃ time', readInsert (sqlText time msg) = some (time', msg)) ↔ quote ∉ msg := by
  have hend : quote ∉ endOfValues := by decide
  rw [readInsert_sqlText htime]
  constructor
  · rintro ⟨time', hread⟩
    obtain ⟨⟨v, rest⟩, hlit, hread⟩ := Option.bind_eq_some_iff.mp hread
    obtain ⟨l, -, hread⟩ := Option.bind_eq_some_iff.mp hread
    split at hread
    · obtain ⟨-, rfl⟩ := Prod.mk.inj (Option.some_inj.mp hread)
      exact (readLiteral_verbatim hend).mp ⟨rest, hlit⟩
    · cases hread
  · intro hno
    have hlit := @readLiteral_literal _ _ quote msg endOfValues (by decide)
    rw [literal, doubled_of_not_mem hno] at hlit
    simp only [List.cons_append, List.append_assoc, List.nil_append] at hlit
    exact ⟨time, by rw [hlit]; rfl⟩

/-- `sprintf` stays inside of the array exactly when text and NUL fit. -/
theorem insertDb_of_strlen {t : Tm} {msg : List UInt8} {n : Nat} (h : strlen msg = some n) :
    insertDb t msg
      = if (sqlText (ctimeText t) (stringOf msg)).length < sqlLen
        then some (padded sqlLen (sqlText (ctimeText t) (stringOf msg))) else none := by
  rw [insertDb, h]
  simp only [Option.bind_eq_bind, Option.bind_some, take_strlen h]
  by_cases hfit : (sqlText (ctimeText t) (stringOf msg)).length < sqlLen
  · have hone : (sqlText (ctimeText t) (stringOf msg) ++ [0]).length ≤ sqlLen := by
      rw [List.length_append, List.length_singleton]
      omega
    obtain ⟨j, hj⟩ : ∃ j, sqlLen - (sqlText (ctimeText t) (stringOf msg)).length = j + 1 :=
      ⟨sqlLen - (sqlText (ctimeText t) (stringOf msg)).length - 1, by omega⟩
    have hj' : sqlLen - ((sqlText (ctimeText t) (stringOf msg)).length + 1) = j := by omega
    rw [if_pos hfit, putAt_zeros hone, padded, padded, List.length_append, List.length_singleton, hj,
      hj', List.replicate_succ, List.append_assoc, List.singleton_append]
  · rw [if_neg hfit, putAt, if_neg]
    rw [List.length_append, List.length_singleton, List.length_replicate]
    omega

theorem insertDb_eq {t : Tm} {frame : List UInt8} (hlen : frame.length < uartRdBufSize)
    (hnul : 0 ∉ frame) :
    insertDb t (frameBuf frame)
      = if (sqlText (ctimeText t) frame).length < sqlLen
        then some (padded sqlLen (sqlText (ctimeText t) frame)) else none := by
  have heq := @insertDb_of_strlen t (frameBuf frame) _ (strlen_padded hlen hnul)
  rwa [frameBuf, stringOf_padded, stringOf_eq_self hnul] at heq

/-- The template, the time and the NUL leave room for a string of 429 bytes. -/
theorem insertDb_eq_none_iff (t : Tm) {frame : List UInt8} (hlen : frame.length ≤ uartRdBufSize) :
    insertDb t (frameBuf frame) = none ↔ 429 < (stringOf frame).length := by
  have hsize := sqlText_length (ctimeText t) (stringOf frame)
  rw [ctimeText_length] at hsize
  have hstrlen := strlen_padded_of_le hlen
  by_cases hends : (stringOf frame).length < uartRdBufSize
  · rw [if_pos hends] at hstrlen
    rw [frameBuf, insertDb_of_strlen hstrlen, stringOf_padded]
    by_cases hfit : (sqlText (ctimeText t) (stringOf frame)).length < sqlLen
    · rw [if_pos hfit]
      unfold sqlLen at hfit
      exact ⟨fun h => absurd h (Option.some_ne_none _), fun h => by omega⟩
    · rw [if_neg hfit]
      unfold sqlLen at hfit
      exact ⟨fun _ => by omega, fun _ => rfl⟩
  · -- the string does not end in the array of the reader
    rw [if_neg hends] at hstrlen
    rw [frameBuf, insertDb, hstrlen]
    unfold uartRdBufSize at hends
    exact ⟨fun _ => by omega, fun _ => rfl⟩

end Text

/-! ## The statement for a frame -/

/-- A frame is logged as itself exactly when it has no quote and at most 429 bytes. -/
theorem logsFrame_iff (t : Tm) {body : List UInt8} (hnul : 0 ∉ body)
    (hlen : (uartStartFlag :: (body ++ [uartEndFlag])).length < uartRdBufSize) :
    LogsFrame t (uartStartFlag :: (body ++ [uartEndFlag])) ↔
      quote ∉ body ∧ (uartStartFlag :: (body ++ [uartEndFlag])).length ≤ 429 := by
  have hframe : 0 ∉ uartStartFlag :: (body ++ [uartEndFlag]) := by
    simp only [List.mem_cons, List.mem_append, List.not_mem_nil, or_false, not_or]
    exact ⟨by decide, hnul, by decide⟩
  have hquote : quote ∉ uartStartFlag :: (body ++ [uartEndFlag]) ↔ quote ∉ body := by
    have hstart : quote ≠ uartStartFlag := by decide
    have hend : quote ≠ uartEndFlag := by decide
    simp only [List.mem_cons, List.mem_append, List.not_mem_nil, or_false, not_or, hstart, hend,
      not_false_eq_true, true_and]
  have hplain := ctimeText_plain t
  have htimeQuote : quote ∉ ctimeText t := fun hc => (hplain quote hc).1 rfl
  have htimeNul : 0 ∉ ctimeText t := fun hc => (hplain 0 hc).2 rfl
  have hnone := not_mem_sqlText htimeNul hframe
  have heq := @insertDb_eq t _ hlen hframe
  have hsize := sqlText_length (ctimeText t) (uartStartFlag :: (body ++ [uartEndFlag]))
  rw [ctimeText_length] at hsize
  rw [← hquote]
  generalize uartStartFlag :: (body ++ [uartEndFlag]) = frame at hlen hframe hnone heq hsize ⊢
  have hfits : (sqlText (ctimeText t) frame).length < sqlLen ↔ frame.length ≤ 429 := by
    unfold sqlLen
    omega
  constructor
  · rintro ⟨text, hinsert, hstrlen, hread⟩
    rw [heq] at hinsert
    split at hinsert
    · next hfit =>
      have htext : text = sqlText (ctimeText t) frame :=
        padded_inj hstrlen (strlen_padded hfit hnone) (Option.some_inj.mp hinsert).symm
      rw [htext] at hread
      exact ⟨(readInsert_iff htimeQuote).mp hread, hfits.mp hfit⟩
    · cases hinsert
  · rintro ⟨hno, hle⟩
    have hfit := hfits.mpr hle
    rw [if_pos hfit] at heq
    exact ⟨_, heq, strlen_padded hfit hnone, (readInsert_iff htimeQuote).mpr hno⟩

/-- Midnight of the first of January 2024, a Monday. -/
def newYear : Tm := ⟨1, 0, 1, 0, 0, 0, 2024, by decide, by decide⟩

example : ctimeText newYear = cstr "Mon Jan  1 00:00:00 2024\n".toList := by decide

/-- A frame of three bytes. -/
theorem logsFrame_iff_short : LogsFrame newYear [0x24, 0x61, 0x26] :=
  (@logsFrame_iff newYear [0x61] (by decide) (by decide)).mpr ⟨by decide, by decide⟩

/-- A frame with a quote makes another statement, and one of 430 bytes leaves the array. -/
theorem not_logsFrame_examples :
    ¬ LogsFrame newYear [0x24, quote, 0x26] ∧
      ¬ LogsFrame newYear (uartStartFlag :: (List.replicate 428 0x61 ++ [uartEndFlag])) := by
  have htime : quote ∉ ctimeText newYear := fun hc => (ctimeText_plain newYear quote hc).1 rfl
  have hnul : 0 ∉ ctimeText newYear := fun hc => (ctimeText_plain newYear 0 hc).2 rfl
  refine ⟨?_, ?_⟩
  · rintro ⟨text, hinsert, hstrlen, hread⟩
    have hlen := sqlText_length (ctimeText newYear) [0x24, quote, 0x26]
    rw [ctimeText_length] at hlen
    have hfit : (sqlText (ctimeText newYear) [0x24, quote, 0x26]).length < sqlLen := by
      rw [hlen]
      decide
    rw [insertDb_eq (by decide) (by decide), if_pos hfit] at hinsert
    have htext := padded_inj hstrlen (strlen_padded hfit (not_mem_sqlText hnul (by decide)))
      (Option.some_inj.mp hinsert).symm
    rw [htext, readInsert_iff htime] at hread
    exact hread (by decide)
  · have hmem : ∀ b ∈ uartStartFlag :: (List.replicate 428 0x61 ++ [uartEndFlag]), b ≠ 0 := by
      intro b hb
      simp only [List.mem_cons, List.mem_append, List.mem_replicate, List.not_mem_nil, or_false] at hb
      rcases hb with rfl | ⟨-, rfl⟩ | rfl <;> decide
    have hlen : (uartStartFlag :: (List.replicate 428 0x61 ++ [uartEndFlag])).length = 430 := by
      rw [List.length_cons, List.length_append, List.length_replicate, List.length_singleton]
    have hbig : ¬ (sqlText (ctimeText newYear)
        (uartStartFlag :: (List.replicate 428 0x61 ++ [uartEndFlag]))).length < sqlLen := by
      rw [sqlText_length, ctimeText_length, hlen]
      decide
    rintro ⟨text, hinsert, -⟩
    rw [insertDb_eq (by rw [hlen]; decide) (fun hc => hmem 0 hc rfl), if_neg hbig] at hinsert
    cases hinsert

end Gateway.Sqlite.InsertDb
