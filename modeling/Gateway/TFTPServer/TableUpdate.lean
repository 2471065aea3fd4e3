/-
  Gateway.TFTPServer.TableUpdate

  The update of the IP table as the rest of the gateway sees it: a transfer that
  replaces the file `IPtable.txt`, and the signal that makes the parent process
  read it again.

  `tftp_process_write` truncates the file before it has received anything, and it
  sends the signal whenever it got past its receive call.  `allOrNothing_iff` says
  when the parent still sees either the old table or the whole new one.
-/

import Gateway.TFTPServer.WriteSpec

namespace Gateway.TFTPServer.TableUpdate

open Gateway.Lib.BlockMem Gateway.Lib.BlockTransfer Gateway.Lib.CString
open Gateway.TFTPServer.TftpUtils Gateway.TFTPServer.TftpServer Gateway.TFTPServer.WriteSpec

/-! ## All or nothing -/

/-- The signals to the parent: what is on disk for `ParsTxt` to read, and the state of the
    server's stream on the file. -/
def signals (trace : List Event) : List (Option (List UInt8) × FilePtr) :=
  trace.filterMap fun
    | .signal disk file => some (disk, file)
    | _ => none

/-- The world in which a transfer ends, or in which it waits. -/
def endWorld : Outcome Halt (Int × World) → Option World
  | .ok (_, w) => some w
  | .err (_, w) => some w
  | .fault => none

/-- The file was received to its end, and is on disk. -/
def Complete (w : World) : Prop :=
  (fileOf (packetsIn w.trace)).done = true ∧ w.disk = some (fileOf (packetsIn w.trace)).data

/-- The table is replaced all or nothing: without a complete file it stays as it was and the
    parent is not signalled, and with a signal the parent reads the complete file, which is
    closed. -/
def AllOrNothing (env : Env) (buffer : List UInt8) (old : Option (List UInt8))
    (incoming : List Recv) : Prop :=
  ∃ w, endWorld (tftpProcessWrite env (start buffer old incoming)) = some w ∧
    (¬ Complete w → w.disk = old ∧ signals w.trace = []) ∧
    ∀ s ∈ signals w.trace,
      Complete w ∧ s = (some (fileOf (packetsIn w.trace)).data, FilePtr.closed)

/-- The table is safe when the target cannot be opened, when it was empty and no packet was
    handled, and when the packet is a whole file that can be written and flushed. -/
def TableSafe (env : Env) (old : Option (List UInt8)) (incoming : List Recv) : Prop :=
  env.fopenOk = false ∨
    old = some [] ∧ (env.mallocOk = false ∨ incoming = []) ∨
    env.mallocOk = true ∧ ∃ p rest, incoming = .packet p :: rest ∧ OnlyBlock p ∧
      p.length - 4 ≤ env.fwriteRoom ∧ p.length - 4 ≤ env.flushRoom

/-! ## The runs -/

section Runs

variable {env : Env} {buffer : List UInt8} {old : Option (List UInt8)} {incoming : List Recv}

/-- A run that ends before its packet keeps the table only if that was empty. -/
theorem allOrNothing_of_no_packet {w : World}
    (hend : endWorld (tftpProcessWrite env (start buffer old incoming)) = some w)
    (hpackets : packetsIn w.trace = []) (hsignals : signals w.trace = []) :
    AllOrNothing env buffer old incoming ↔ w.disk = old := by
  have hnot : ¬ Complete w := by
    rintro ⟨hdone, -⟩
    rw [hpackets] at hdone
    cases hdone
  constructor
  · rintro ⟨w', hend', hkeep, -⟩
    obtain rfl : w = w' := Option.some_inj.mp (hend.symm.trans hend')
    exact (hkeep hnot).1
  · intro hdisk
    refine ⟨w, hend, fun _ => ⟨hdisk, hsignals⟩, fun s hs => ?_⟩
    rw [hsignals] at hs
    cases hs

/-- A run that got past its receive call signals the parent, so it has to be complete. -/
theorem onlyBlock_of_allOrNothing {r : Recv} {rest : List Recv} (hf : env.fopenOk = true)
    (hm : env.mallocOk = true) (h : AllOrNothing env buffer old (r :: rest)) :
    ∃ p, r = .packet p ∧ OnlyBlock p ∧
      p.length - 4 ≤ env.fwriteRoom ∧ p.length - 4 ≤ env.flushRoom := by
  obtain ⟨w, hend, -, hsignal⟩ := h
  by_cases hok : tftpExtractBlock (recvBytes r) = 1 →
      (recvBytes r).length ≤ 4 ∨ 0 < env.fwriteRoom
  · have hrun := hend
    rw [tftpProcessWrite_returns hf hm hok] at hrun
    have hcomplete : Complete w := by
      obtain rfl := Option.some_inj.mp hrun
      exact (hsignal _ (List.mem_singleton_self _)).1
    have hpackets : packetsIn w.trace = packetsIn [.recv r] := by
      obtain rfl := Option.some_inj.mp hrun
      cases r <;> rfl
    obtain ⟨hdone, hdisk⟩ := hcomplete
    rw [hpackets] at hdone hdisk
    cases r with
    | error => cases hdone
    | packet p =>
      have hp : OnlyBlock p := onlyBlock_of_done hdone
      rw [tftpProcessWrite_onlyBlock hf hm hp (hok hp.2.1)] at hend
      -- the file on disk went through `fwrite` and `fclose`
      have hall : ((p.drop 4).take env.fwriteRoom).take env.flushRoom = (fileOf [p]).data := by
        obtain rfl := Option.some_inj.mp hend
        exact Option.some_inj.mp hdisk
      rw [fileOf_onlyBlock hp, take_take_eq_iff, List.length_drop] at hall
      exact ⟨p, rfl, hp, hall⟩
  · -- the first write failed
    obtain ⟨hblock, hno⟩ := Classical.not_imp.mp hok
    rw [tftpProcessWrite_fault hf hm hblock (Nat.lt_of_not_le fun hle => hno (Or.inl hle))
      (Nat.eq_zero_of_not_pos fun hpos => hno (Or.inr hpos))] at hend
    cases hend

/-- A first packet with a whole block of data, or more, loses the table. -/
theorem not_allOrNothing_fullBlock {p : List UInt8} {rest : List Recv} (hf : env.fopenOk = true)
    (hm : env.mallocOk = true) (hlen : 516 ≤ p.length) :
    ¬ AllOrNothing env buffer old (.packet p :: rest) := by
  intro h
  obtain ⟨q, hq, hp, -⟩ := onlyBlock_of_allOrNothing hf hm h
  have hshort := hp.2.2
  rw [← Recv.packet.inj hq] at hshort
  omega

/-- A file in one packet replaces the table. -/
theorem allOrNothing_of_onlyBlock {p : List UInt8} {rest : List Recv} (hf : env.fopenOk = true)
    (hm : env.mallocOk = true) (hp : OnlyBlock p) (hwrite : p.length - 4 ≤ env.fwriteRoom)
    (hflush : p.length - 4 ≤ env.flushRoom) :
    AllOrNothing env buffer old (.packet p :: rest) := by
  have hlen : (p.drop 4).length = p.length - 4 := List.length_drop
  have hrun := @tftpProcessWrite_onlyBlock env buffer old rest p hf hm hp (by omega)
  rw [take_take_eq_iff.mpr ⟨by omega, by omega⟩] at hrun
  have hdata : (fileOf [p]).data = p.drop 4 := by rw [fileOf_onlyBlock hp]
  have hdone : (fileOf [p]).done = true := by rw [fileOf_onlyBlock hp]
  refine ⟨_, congrArg endWorld hrun, fun hnot => ?_, fun s hs => ?_⟩
  · exact absurd ⟨hdone, congrArg some hdata.symm⟩ hnot
  · obtain rfl := List.mem_singleton.mp hs
    refine ⟨⟨hdone, congrArg some hdata.symm⟩, ?_⟩
    show (some (p.drop 4), FilePtr.closed) = (some (fileOf [p]).data, FilePtr.closed)
    rw [hdata]

end Runs

/-- **The runs that replace the table all or nothing.** -/
theorem allOrNothing_iff (env : Env) (buffer : List UInt8) (old : Option (List UInt8))
    (incoming : List Recv) :
    AllOrNothing env buffer old incoming ↔ TableSafe env old incoming := by
  cases hf : env.fopenOk with
  | false =>
    -- the process dies before it touches the file
    refine (allOrNothing_of_no_packet (congrArg endWorld (tftpProcessWrite_fopen_fails hf))
      rfl rfl).trans ?_
    exact ⟨fun _ => Or.inl hf, fun _ => rfl⟩
  | true =>
  cases hm : env.mallocOk with
  | false =>
    refine (allOrNothing_of_no_packet (congrArg endWorld (tftpProcessWrite_malloc_fails hf hm))
      rfl rfl).trans ?_
    simp only [TableSafe, hf, hm, Bool.true_eq_false, Bool.false_eq_true, true_or, false_or,
      and_true, false_and, or_false]
    exact eq_comm
  | true =>
  cases incoming with
  | nil =>
    refine (allOrNothing_of_no_packet (congrArg endWorld (tftpProcessWrite_waits hf hm))
      rfl rfl).trans ?_
    simp only [TableSafe, hf, hm, Bool.true_eq_false, or_true, false_or, and_true, true_and]
    constructor
    · exact fun hdisk => Or.inl hdisk.symm
    · rintro (hold | ⟨p, rest, hcons, -⟩)
      · exact hold.symm
      · cases hcons
  | cons r rest =>
    constructor
    · intro h
      obtain ⟨p, rfl, hp, hrooms⟩ := onlyBlock_of_allOrNothing hf hm h
      exact Or.inr (Or.inr ⟨hm, p, rest, rfl, hp, hrooms⟩)
    · rintro (hopen | ⟨-, hmalloc | hnil⟩ | ⟨-, p, rest', hcons, hp, hwrite, hflush⟩)
      · rw [hf] at hopen
        cases hopen
      · rw [hm] at hmalloc
        cases hmalloc
      · cases hnil
      · obtain ⟨rfl, rfl⟩ := List.cons.inj hcons
        exact allOrNothing_of_onlyBlock hf hm hp hwrite hflush

/-- A table of 513 bytes: at its first block the parent is signalled, and the file is empty. -/
theorem not_allOrNothing_twoBlocks :
    ¬ AllOrNothing { fopenOk := true, mallocOk := true, fwriteRoom := 4096, flushRoom := 4096 }
      [] (some (cstr "192.168.1.2/led#".toList))
      [.packet (dataPacket 1 (List.replicate 512 0x41)), .packet (dataPacket 2 [0x42])] := by
  refine not_allOrNothing_fullBlock rfl rfl ?_
  rw [dataPacket_eq, List.length_append, List.length_replicate]
  exact Nat.le_refl 516

end Gateway.TFTPServer.TableUpdate
