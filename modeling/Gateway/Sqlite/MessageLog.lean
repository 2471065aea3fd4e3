/-
  Gateway.Sqlite.MessageLog

  The log of the gateway: what `Insert_db` (`sqlite/sqlite.c`) makes of all frames that
  the reader of the UART passes on (`uart/uart.c`).

  Every frame is put between the quotes of the statement as it is.  So for streams without a
  NUL that the reader's buffer and the memory can hold, the log says what the stream says
  exactly when all frames are `Clean` (`log_exact_iff`).  The reader of the UART does not
  look at what is in a frame, so as long as it has not stopped, a sender decides what SQLite
  executes: a frame can close the statement and bring its own (`injects`).
-/

import Gateway.Sqlite.InsertDb
import Gateway.Uart.Framing

namespace Gateway.Sqlite.MessageLog

open Gateway.Lib.CString Gateway.Lib.Framing Gateway.Lib.Quoting
open Gateway.Uart.ReadThread Gateway.Uart.Framing
open Gateway.Sqlite.InsertDb

/-! ## The log -/

/-- `Insert_db` for one array after the other; call number `k` is made at `times k`. -/
def insertAll (times : Nat → Tm) : Nat → List (List UInt8) → Option (List (List UInt8))
  | _, [] => some []
  | k, buf :: bufs => do
    let sql ← insertDb (times k) buf
    let sqls ← insertAll times (k + 1) bufs
    some (sql :: sqls)

/-- The message that a statement inserts. -/
def rowOf (sql : List UInt8) : Option (List UInt8) := do
  let n ← strlen sql
  let (_, msg) ← readInsert (sql.take n)
  some msg

/-- The frame has no quote, and its statement fits into `sql`. -/
def Clean (frame : List UInt8) : Prop := quote ∉ frame ∧ frame.length ≤ 429

/-- The statements are executed, and insert these messages. -/
def Logs (times : Nat → Tm) (k : Nat) (bufs rows : List (List UInt8)) : Prop :=
  ∃ sqls, insertAll times k bufs = some sqls ∧ sqls.map rowOf = rows.map some

/-! ## One frame -/

section Frame

variable {t : Tm} {frame : List UInt8}

theorem ctimeText_quote (t : Tm) : quote ∉ ctimeText t :=
  fun hc => (ctimeText_plain t quote hc).1 rfl

theorem ctimeText_nul (t : Tm) : 0 ∉ ctimeText t := fun hc => (ctimeText_plain t 0 hc).2 rfl

/-- What a statement that fits is read as. -/
theorem rowOf_sqlText (hnul : 0 ∉ frame) (hfit : (sqlText (ctimeText t) frame).length < sqlLen) :
    rowOf (padded sqlLen (sqlText (ctimeText t) frame))
      = (readInsert (sqlText (ctimeText t) frame)).map Prod.snd := by
  have htake : (padded sqlLen (sqlText (ctimeText t) frame)).take
      (sqlText (ctimeText t) frame).length = sqlText (ctimeText t) frame := List.take_left
  rw [rowOf, strlen_padded hfit (not_mem_sqlText (ctimeText_nul t) hnul)]
  simp only [Option.bind_eq_bind, Option.bind_some, htake]
  cases readInsert (sqlText (ctimeText t) frame) <;> rfl

/-- One frame is logged exactly when it is clean. -/
theorem insertDb_rowOf_iff (t : Tm) (hnul : 0 ∉ frame) (hlen : frame.length < uartRdBufSize) :
    (∃ sql, insertDb t (frameBuf frame) = some sql ∧ rowOf sql = some frame) ↔ Clean frame := by
  have hsize := sqlText_length (ctimeText t) frame
  rw [ctimeText_length] at hsize
  have hfits : (sqlText (ctimeText t) frame).length < sqlLen ↔ frame.length ≤ 429 := by
    unfold sqlLen
    omega
  rw [insertDb_eq hlen hnul]
  by_cases hfit : (sqlText (ctimeText t) frame).length < sqlLen
  · rw [if_pos hfit]
    have hrow := rowOf_sqlText hnul hfit
    constructor
    · rintro ⟨sql, hsql, hread⟩
      obtain rfl := Option.some_inj.mp hsql
      rw [hrow] at hread
      obtain ⟨⟨time, msg⟩, hread, rfl⟩ := Option.map_eq_some_iff.mp hread
      exact ⟨(readInsert_iff (ctimeText_quote t)).mp ⟨time, hread⟩, hfits.mp hfit⟩
    · rintro ⟨hquote, -⟩
      obtain ⟨time, hread⟩ := (readInsert_iff (ctimeText_quote t)).mpr hquote
      refine ⟨_, rfl, ?_⟩
      rw [hrow, hread]
      rfl
  · rw [if_neg hfit]
    constructor
    · rintro ⟨sql, hsql, -⟩
      cases hsql
    · rintro ⟨-, hle⟩
      exact absurd (hfits.mpr hle) hfit

end Frame

/-! ## All frames -/

/-- The frames are logged as themselves exactly when all of them are clean. -/
theorem logs_iff (times : Nat → Tm) (k : Nat) {frames : List (List UInt8)}
    (hnul : ∀ frame ∈ frames, 0 ∉ frame) (hlen : ∀ frame ∈ frames, frame.length < uartRdBufSize) :
    Logs times k (frames.map frameBuf) frames ↔ ∀ frame ∈ frames, Clean frame := by
  induction frames generalizing k with
  | nil => exact ⟨fun _ _ hno => absurd hno List.not_mem_nil, fun _ => ⟨[], rfl, rfl⟩⟩
  | cons frame frames ih =>
    rw [List.forall_mem_cons] at hnul hlen
    have hone := insertDb_rowOf_iff (times k) hnul.1 hlen.1
    have hrest := ih (k + 1) hnul.2 hlen.2
    rw [List.forall_mem_cons, ← hone, ← hrest]
    constructor
    · rintro ⟨sqls, hall, hrows⟩
      obtain ⟨sql, hsql, hall⟩ := Option.bind_eq_some_iff.mp hall
      obtain ⟨sqls', hsqls, hall⟩ := Option.bind_eq_some_iff.mp hall
      obtain rfl := Option.some_inj.mp hall
      rw [List.map_cons, List.map_cons, List.cons.injEq] at hrows
      exact ⟨⟨sql, hsql, hrows.1⟩, sqls', hsqls, hrows.2⟩
    · rintro ⟨⟨sql, hsql, hrow⟩, sqls, hsqls, hrows⟩
      refine ⟨sql :: sqls, ?_, ?_⟩
      · rw [List.map_cons, insertAll, hsql]
        simp only [Option.bind_eq_bind, Option.bind_some, hsqls]
      · rw [List.map_cons, List.map_cons, hrow, hrows]

/-- No statement of the log leaves its array. -/
theorem insertDb_ne_none_of_insertAll {times : Nat → Tm} {k : Nat} {bufs sqls : List (List UInt8)}
    (h : insertAll times k bufs = some sqls) {i : Nat} {buf : List UInt8} (hi : bufs[i]? = some buf) :
    insertDb (times (k + i)) buf ≠ none := by
  induction bufs generalizing k sqls i with
  | nil => cases hi
  | cons first bufs ih =>
    obtain ⟨sql, hsql, h⟩ := Option.bind_eq_some_iff.mp h
    obtain ⟨sqls', hsqls, -⟩ := Option.bind_eq_some_iff.mp h
    cases i with
    | zero =>
      obtain rfl := Option.some_inj.mp hi
      rw [Nat.add_zero, hsql]
      exact Option.some_ne_none _
    | succ i =>
      rw [show k + (i + 1) = k + 1 + i by omega]
      exact ih hsqls hi

/-- What is clean makes a statement that fits. -/
theorem statementsFit_of_clean {stream : List UInt8}
    (h : ∀ frame ∈ texts stream, Clean frame) : StatementsFit stream :=
  fun frame hframe => (List.takeWhile_prefix _).length_le.trans (h frame hframe).2

/-- Let the stream have no NUL and its segments fit into the reader's buffer, and let there be
    memory for the reader's messages.  Then the log holds the frames of the stream, each as it was
    sent and in their order, exactly when none of them has a quote and none is longer than 429
    bytes. -/
theorem log_exact_iff (times : Nat → Tm) (polls : List Poll) {tmpMsgOk : Nat → Bool}
    (newElementOk : Nat → Bool) (htmp : ∀ k, tmpMsgOk k = true) (hnul : 0 ∉ received polls)
    (hfit : ∀ seg ∈ segments uartEndFlag (received polls), seg.length ≤ uartRdBufSize) :
    Logs times 0 (uartReadThread (gatewayEnv times tmpMsgOk newElementOk) polls).insertDb
        (texts (received polls)) ↔
      ∀ frame ∈ texts (received polls), Clean frame := by
  have hframeNul : ∀ frame ∈ texts (received polls), 0 ∉ frame := by
    intro frame hframe hmem
    apply hnul
    rw [← @segments_flatten _ _ uartEndFlag (received polls)]
    exact List.mem_append_left _
      (List.mem_flatten.mpr ⟨frame, List.mem_of_mem_filter hframe, hmem⟩)
  by_cases hsql : StatementsFit (received polls)
  · obtain ⟨hall, -⟩ := @gateway_all_posted times tmpMsgOk newElementOk polls htmp hfit hsql
    rw [hall, frames_eq]
    refine logs_iff times 0 hframeNul fun frame hframe => ?_
    have hle := hsql frame hframe
    rw [stringOf_eq_self (hframeNul frame hframe)] at hle
    unfold uartRdBufSize
    omega
  · -- the reader stops in `Insert_db`, so that statement is not executed
    obtain ⟨k, buf, hk, hnone⟩ :=
      @sqlOverrun_of_long times tmpMsgOk newElementOk polls htmp hfit hsql
    constructor
    · rintro ⟨sqls, hall, -⟩
      have hne := insertDb_ne_none_of_insertAll hall hk
      rw [Nat.zero_add] at hne
      exact absurd hnone hne
    · intro hclean
      exact absurd (statementsFit_of_clean hclean) hsql

/-- Two frames with noise between them are logged. -/
theorem log_exact_iff_twoFrames :
    Logs (fun _ => newYear) 0 (uartReadThread newYearEnv
      [.data 0x24, .data 0x31, .timeout, .data 0x26, .data 0x0A, .data 0x26, .data 0x24,
        .data 0x26]).insertDb [[0x24, 0x31, 0x26], [0x24, 0x26]] :=
  (@log_exact_iff (fun _ => newYear)
    [.data 0x24, .data 0x31, .timeout, .data 0x26, .data 0x0A, .data 0x26, .data 0x24,
      .data 0x26] (fun _ => true) (fun _ => true) (fun _ => rfl) (by decide) (by decide)).mpr
    (by unfold Clean; decide)

/-! ## A frame that is more than data -/

/-- A frame with this text behind the end of the statement, and a comment behind the text. -/
def injecting (stmt : List UInt8) : List UInt8 :=
  uartStartFlag :: (quote :: (cstr "); ".toList ++ (stmt ++ cstr " --".toList)) ++ [uartEndFlag])

section Injection

variable {stmt : List UInt8}

theorem injecting_length (stmt : List UInt8) : (injecting stmt).length = stmt.length + 9 := by
  have h1 : (cstr "); ".toList).length = 3 := by decide
  have h2 : (cstr " --".toList).length = 3 := by decide
  simp only [injecting, List.length_cons, List.length_append, List.length_nil, h1, h2]
  omega

/-- There is no end flag before its end. -/
theorem injecting_body (hend : uartEndFlag ∉ stmt) :
    uartEndFlag ∉ quote :: (cstr "); ".toList ++ (stmt ++ cstr " --".toList)) := by
  have h1 : uartEndFlag ∉ cstr "); ".toList := by decide
  have h2 : uartEndFlag ∉ cstr " --".toList := by decide
  have h3 : uartEndFlag ≠ quote := by decide
  simp only [List.mem_cons, List.mem_append, h1, h2, h3, hend, or_self, not_false_eq_true]

/-- The text up to the statement is a whole statement of its own. -/
theorem readInsert_first (t : Tm) :
    readInsert (sqlText (ctimeText t) [uartStartFlag]) = some (ctimeText t, [uartStartFlag]) := by
  have hno : quote ∉ [uartStartFlag] := by decide
  have hlit := @readLiteral_literal _ _ quote [uartStartFlag] endOfValues (by decide)
  rw [literal, doubled_of_not_mem hno] at hlit
  rw [readInsert_sqlText (ctimeText_quote t)]
  simp only [List.cons_append, List.nil_append] at hlit ⊢
  rw [hlit]
  rfl

/-- The reader passes on a frame behind a run in which it has not stopped, and nothing is
    unfinished. -/
theorem insertDb_concat {env : Env} {polls more : List Poll} {body : List UInt8}
    (hrun : (uartReadThread env polls).stop = none)
    (hfinished : unfinished uartEndFlag (received polls) = []) (hbody : uartEndFlag ∉ body)
    (hmore : received more = uartStartFlag :: (body ++ [uartEndFlag]))
    (hlen : (received more).length ≤ uartRdBufSize) :
    (uartReadThread env (polls ++ more)).insertDb
      = (uartReadThread env polls).insertDb ++ [frameBuf (received more)] := by
  have hstream : received (polls ++ more)
      = received polls ++ uartStartFlag :: (body ++ [uartEndFlag]) := by
    rw [← hmore, received, List.filterMap_append]
    rfl
  have hno : uartEndFlag ∉ uartStartFlag :: body := by
    rw [List.mem_cons, not_or]
    exact ⟨by decide, hbody⟩
  have hsegs := segments_segment (received polls) hno []
  rw [hfinished, List.append_nil, segments_nil, List.append_nil, List.nil_append,
    List.cons_append, ← hstream, ← hmore] at hsegs
  have hrest : unfinished uartEndFlag (received (polls ++ more)) = [] := by
    rw [unfinished_eq_nil_iff, hstream, ← List.cons_append, ← List.append_assoc]
    exact Or.inr List.getLast?_concat
  have hframes : frames (received (polls ++ more))
      = frames (received polls) ++ [frameBuf (received more)] := by
    rw [frames_eq, frames_eq, texts, hsegs, List.filter_append, List.map_append, ← texts,
      List.filter_singleton, hmore]
    rfl
  have hreads := reads_of_running hrun
  rw [hreads.all, ← hframes]
  rcases reads_or_stopped env (polls ++ more) with hnext | hstopped
  · exact hnext.all
  · -- the thread can stop at the new frame only, and then it has called `Insert_db`
    have hmono := msgQSem_mono env polls more
    rw [hreads.posted, hreads.all] at hmono
    have hlast : ∀ k, (uartReadThread env (polls ++ more)).insertDb.length = k + 1 →
        (frames (received polls)).length ≤ k →
          (uartReadThread env (polls ++ more)).insertDb = frames (received (polls ++ more)) := by
      intro k hk hle
      refine hstopped.logged.eq_of_length_le ?_
      rw [hframes, List.length_append, List.length_singleton, hk]
      omega
    cases hstopped.cause with
    | sqlOverrun buf hstop hposted => exact hlast _ hposted hmono
    | exit hstop hposted => exact hlast _ hposted hmono
    | overrun hstop hposted hlong =>
      exfalso
      rcases hlong with ⟨seg, hseg, hlong⟩ | ⟨hlong, -⟩
      · rw [hsegs, List.mem_append, List.mem_singleton] at hseg
        rcases hseg with hseg | rfl
        · exact absurd (hreads.segs seg hseg) (by omega)
        · omega
      · rw [hrest] at hlong
        exact absurd hlong (by decide)

/-- As long as the reader has not stopped (no run too long for its buffer, no frame too long for
    its statement, no allocation failed) and nothing is unfinished, a sender can have a statement
    of its choice executed, of up to 420 bytes without a NUL and without the end flag: the text for
    SQLite is an insert that is complete, then this statement, and then a comment. -/
theorem injects {times : Nat → Tm} {tmpMsgOk newElementOk : Nat → Bool} {polls more : List Poll}
    (hrun : (uartReadThread (gatewayEnv times tmpMsgOk newElementOk) polls).stop = none)
    (hfinished : unfinished uartEndFlag (received polls) = [])
    (hmore : received more = injecting stmt) (hnul : 0 ∉ stmt) (hend : uartEndFlag ∉ stmt)
    (hlen : stmt.length ≤ 420) (t : Tm) :
    ∃ first rest, (uartReadThread (gatewayEnv times tmpMsgOk newElementOk) (polls ++ more)).insertDb
        = (uartReadThread (gatewayEnv times tmpMsgOk newElementOk) polls).insertDb
            ++ [frameBuf (injecting stmt)] ∧
      insertDb t (frameBuf (injecting stmt))
        = some (padded sqlLen (first ++ stmt ++ cstr " --".toList ++ rest)) ∧
      readInsert first = some (ctimeText t, [uartStartFlag]) ∧ 0x0A ∉ rest := by
  have hframeLen := injecting_length stmt
  have hframeNul : 0 ∉ injecting stmt := by
    have h1 : 0 ∉ cstr "); ".toList := by decide
    have h2 : 0 ∉ cstr " --".toList := by decide
    have h3 : (0 : UInt8) ≠ uartStartFlag := by decide
    have h4 : (0 : UInt8) ≠ uartEndFlag := by decide
    have h5 : (0 : UInt8) ≠ quote := by decide
    simp only [injecting, List.mem_cons, List.mem_append, List.not_mem_nil, h1, h2, h3, h4, h5,
      hnul, or_self, not_false_eq_true]
  have hsize := sqlText_length (ctimeText t) (injecting stmt)
  rw [ctimeText_length] at hsize
  have hsqlFits : (sqlText (ctimeText t) (injecting stmt)).length < sqlLen := by
    unfold sqlLen
    omega
  have hsql := @insertDb_eq t _ (show (injecting stmt).length < uartRdBufSize by
    rw [hframeLen, uartRdBufSize]
    omega) hframeNul
  rw [if_pos hsqlFits] at hsql
  refine ⟨sqlText (ctimeText t) [uartStartFlag], uartEndFlag :: (quote :: endOfValues), ?_, ?_,
    readInsert_first t, by decide⟩
  · rw [← hmore]
    refine insertDb_concat hrun hfinished (injecting_body hend) hmore ?_
    rw [hmore, hframeLen, uartRdBufSize]
    omega
  · rw [hsql]
    have hblank : endOfValues = cstr "); ".toList := rfl
    simp only [sqlText, injecting, hblank, List.append_assoc, List.cons_append, List.nil_append]

/-- The sender of the first frame empties the log. -/
theorem injects_delete : ∃ first rest,
    insertDb newYear (frameBuf (injecting (cstr "DELETE FROM COAPMSG;".toList)))
      = some (padded sqlLen
          (first ++ cstr "DELETE FROM COAPMSG;".toList ++ cstr " --".toList ++ rest)) ∧
    readInsert first = some (ctimeText newYear, [uartStartFlag]) ∧ 0x0A ∉ rest := by
  have hreceived : received ((injecting (cstr "DELETE FROM COAPMSG;".toList)).map Poll.data)
      = injecting (cstr "DELETE FROM COAPMSG;".toList) := received_map_data _
  obtain ⟨first, rest, -, hsql, hfirst, hrest⟩ :=
    @injects _ (fun _ => newYear) (fun _ => true) (fun _ => true) [] _ rfl rfl hreceived (by decide)
      (by decide) (by decide) newYear
  exact ⟨first, rest, hsql, hfirst, hrest⟩

end Injection

end Gateway.Sqlite.MessageLog
