/-
  Gateway.TFTPServer.Resources

  What the transfers do with the stream, the connection arguments and the socket.

  A release of what was not acquired, a second release and a use after the release
  do not end in a value: they are a crash or a fault.  So a transfer keeps to the
  discipline when it ends in a value and holds nothing then (`Disciplined`).
  `disciplined_iff` says for which outcomes of the calls and which packets the two
  transfers do.
-/

import Gateway.TFTPServer.ReadSpec

namespace Gateway.TFTPServer.Resources

open Gateway.Lib.BlockMem
open Gateway.TFTPServer.TftpUtils Gateway.TFTPServer.TftpServer
open Gateway.TFTPServer.WriteSpec Gateway.TFTPServer.ReadSpec

/-! ## The discipline -/

/-- Nothing is held: the stream is closed or was never there, and so are the arguments; the
    socket, which the caller has acquired, is closed. -/
def Released (w : World) : Prop :=
  (w.file = .null ∨ w.file = .closed) ∧ (w.args = .null ∨ w.args = .freed) ∧ w.sock = false

/-- The call returns with everything released, and each once.  While it waits for a packet it has
    not returned. -/
def Disciplined (o : Outcome Halt (Int × World)) : Prop :=
  match o with
  | .ok (_, w) => Released w
  | .err (.waiting, _) => True
  | .err (.crashed, _) => False
  | .fault => False

/-- The stream can be opened, and then there is no memory, or no packet comes, or the packet is
    the ACK of the only block. -/
def ReadReleases (env : Env) (spare : Bool) (old : Option (List UInt8))
    (incoming : List Recv) : Prop :=
  env.fopenOk = true ∧ ∃ file, old = some file ∧
    (env.mallocOk = false ∨ incoming = [] ∨
      ∃ p rest, incoming = .packet p :: rest ∧ spare = true ∧ AcksFirst p ∧ file.length < 512)

/-- The stream can be opened, and then there is no memory, or nothing is received, or what is
    received is less than a full block, and none of its data has to be written or some can be. -/
def WriteReleases (env : Env) (incoming : List Recv) : Prop :=
  env.fopenOk = true ∧
    (env.mallocOk = false ∨ incoming = [] ∨
      ∃ r rest, incoming = r :: rest ∧ (recvBytes r).length < 516 ∧
        (tftpExtractBlock (recvBytes r) = 1 → (recvBytes r).length ≤ 4 ∨ 0 < env.fwriteRoom))

section Runs

variable {env : Env} {spare : Bool} {buffer file : List UInt8} {old : Option (List UInt8)}
  {incoming rest : List Recv} {r : Recv}

/-! ## Read transfers -/

/-- With memory and a packet, only the ACK of a short block leads to a release. -/
theorem disciplined_read_cons (hf : env.fopenOk = true) (hm : env.mallocOk = true) :
    Disciplined (tftpProcessRead env spare (start buffer (some file) (r :: rest))) ↔
      ∃ p, r = .packet p ∧ spare = true ∧ AcksFirst p ∧ file.length < 512 := by
  -- what was received is answered, unless the packet overwrote the block
  have hanswered : ∀ (hspare : spare = true ∨ r = .error),
      Disciplined (tftpProcessRead env spare (start buffer (some file) (r :: rest))) ↔
        AcksFirst (recvBytes r) ∧ file.length < 512 := by
    intro hspare
    rw [tftpProcessRead_answered hf hm hspare]
    by_cases hack : AcksFirst (recvBytes r)
    · rw [tftpReadAck_ack hack]
      by_cases hshort : file.length < 512
      · rw [decide_eq_true hshort]
        exact ⟨fun _ => ⟨hack, hshort⟩, fun _ => ⟨.inr rfl, .inr rfl, rfl⟩⟩
      · -- a full block: nothing is released
        rw [decide_eq_false hshort]
        refine ⟨fun h => ?_, fun h => absurd h.2 hshort⟩
        rcases h.1 with h | h <;> cases h
    · rw [tftpReadAck_fault hack]
      exact ⟨False.elim, fun h => hack h.1⟩
  cases r with
  | error =>
    refine (hanswered (.inr rfl)).trans ⟨fun h => absurd h.1 not_acksFirst_nil, ?_⟩
    rintro ⟨p, hp, -⟩
    cases hp
  | packet p =>
    cases spare with
    -- the sender's address was stored over something that is in use
    | false =>
      rw [tftpProcessRead_overwrites hf hm]
      refine ⟨False.elim, ?_⟩
      rintro ⟨-, -, hspare, -⟩
      cases hspare
    | true =>
      refine (hanswered (.inl rfl)).trans ⟨fun h => ⟨p, rfl, rfl, h⟩, ?_⟩
      rintro ⟨q, hq, -, h⟩
      cases hq
      exact h

theorem disciplined_read_iff :
    Disciplined (tftpProcessRead env spare (start buffer old incoming)) ↔
      ReadReleases env spare old incoming := by
  by_cases hopen : env.fopenOk = false ∨ old = none
  · -- NULL is passed to `fclose`
    rw [tftpProcessRead_fopen_fails hopen]
    refine ⟨False.elim, ?_⟩
    rintro ⟨hf, file, rfl, -⟩
    rcases hopen with hopen | hopen
    · rw [hf] at hopen
      cases hopen
    · cases hopen
  obtain ⟨hf, hold⟩ := not_or.mp hopen
  have hf := Bool.eq_true_of_not_eq_false hf
  obtain ⟨file, rfl⟩ := Option.ne_none_iff_exists'.mp hold
  cases hm : env.mallocOk with
  | false =>
    rw [tftpProcessRead_malloc_fails hf hm]
    exact ⟨fun _ => ⟨hf, file, rfl, .inl hm⟩, fun _ => ⟨.inr rfl, .inl rfl, rfl⟩⟩
  | true =>
    cases incoming with
    | nil =>
      rw [tftpProcessRead_waits hf hm]
      exact ⟨fun _ => ⟨hf, file, rfl, .inr (.inl rfl)⟩, fun _ => trivial⟩
    | cons r rest =>
      rw [disciplined_read_cons hf hm]
      constructor
      · rintro ⟨p, rfl, h⟩
        exact ⟨hf, file, rfl, .inr (.inr ⟨p, rest, rfl, h⟩)⟩
      · rintro ⟨-, file', hfile, hno | hnil | ⟨p, rest', hcons, h⟩⟩
        · rw [hm] at hno
          cases hno
        · cases hnil
        · cases hfile
          cases hcons
          exact ⟨p, rfl, h⟩

/-! ## Write transfers -/

/-- With memory and a packet, what is received decides. -/
theorem disciplined_write_cons (hf : env.fopenOk = true) (hm : env.mallocOk = true) :
    Disciplined (tftpProcessWrite env (start buffer old (r :: rest))) ↔
      (recvBytes r).length < 516 ∧
        (tftpExtractBlock (recvBytes r) = 1 → (recvBytes r).length ≤ 4 ∨ 0 < env.fwriteRoom) := by
  by_cases hok : tftpExtractBlock (recvBytes r) = 1 →
      (recvBytes r).length ≤ 4 ∨ 0 < env.fwriteRoom
  · rw [tftpProcessWrite_returns hf hm hok]
    by_cases hshort : (recvBytes r).length < 516
    · rw [decide_eq_true hshort]
      exact ⟨fun _ => ⟨hshort, hok⟩, fun _ => ⟨.inr rfl, .inr rfl, rfl⟩⟩
    · -- a full block: nothing is released
      rw [decide_eq_false hshort]
      refine ⟨fun h => ?_, fun h => absurd h.1 hshort⟩
      rcases h.1 with h | h <;> cases h
  · -- the error branch releases everything and goes on
    obtain ⟨hblock, hno⟩ := Classical.not_imp.mp hok
    rw [tftpProcessWrite_fault hf hm hblock (Nat.lt_of_not_le fun hle => hno (.inl hle))
      (Nat.eq_zero_of_not_pos fun hpos => hno (.inr hpos))]
    exact ⟨False.elim, fun h => hok h.2⟩

/-- A full block keeps everything. -/
theorem not_disciplined_write_full {p : List UInt8} (hf : env.fopenOk = true)
    (hm : env.mallocOk = true) (hlen : 516 ≤ p.length) :
    ¬ Disciplined (tftpProcessWrite env (start buffer old (.packet p :: rest))) := by
  intro h
  have hshort : p.length < 516 := ((disciplined_write_cons hf hm).mp h).1
  omega

theorem disciplined_write_iff :
    Disciplined (tftpProcessWrite env (start buffer old incoming)) ↔
      WriteReleases env incoming := by
  cases hf : env.fopenOk with
  | false =>
    rw [tftpProcessWrite_fopen_fails hf]
    refine ⟨False.elim, fun h => ?_⟩
    rw [WriteReleases, hf] at h
    cases h.1
  | true =>
  cases hm : env.mallocOk with
  | false =>
    rw [tftpProcessWrite_malloc_fails hf hm]
    exact ⟨fun _ => ⟨hf, .inl hm⟩, fun _ => ⟨.inr rfl, .inl rfl, rfl⟩⟩
  | true =>
  cases incoming with
  | nil =>
    rw [tftpProcessWrite_waits hf hm]
    exact ⟨fun _ => ⟨hf, .inr (.inl rfl)⟩, fun _ => trivial⟩
  | cons r rest =>
    rw [disciplined_write_cons hf hm]
    constructor
    · intro h
      exact ⟨hf, .inr (.inr ⟨r, rest, rfl, h⟩)⟩
    · rintro ⟨-, hno | hnil | ⟨r', rest', hcons, h⟩⟩
      · rw [hm] at hno
        cases hno
      · cases hnil
      · cases hcons
        exact h

end Runs

/-- **The transfers that keep to the discipline.** -/
theorem disciplined_iff (env : Env) (spare : Bool) (buffer : List UInt8)
    (old : Option (List UInt8)) (incoming : List Recv) :
    (Disciplined (tftpProcessRead env spare (start buffer old incoming)) ↔
        ReadReleases env spare old incoming) ∧
      (Disciplined (tftpProcessWrite env (start buffer old incoming)) ↔
        WriteReleases env incoming) :=
  ⟨disciplined_read_iff, disciplined_write_iff⟩

/-- A read of a file that is not there closes NULL, a read that times out uses the arguments
    after their release, and a full block in a write leaves everything open. -/
theorem not_disciplined :
    ¬ Disciplined (tftpProcessRead
        { fopenOk := true, mallocOk := true, fwriteRoom := 4096, flushRoom := 4096 } true
        (start [] none [])) ∧
      ¬ Disciplined (tftpProcessRead
        { fopenOk := true, mallocOk := true, fwriteRoom := 4096, flushRoom := 4096 } true
        (start [] (some [0x41]) [.error])) ∧
      ¬ Disciplined (tftpProcessWrite
        { fopenOk := true, mallocOk := true, fwriteRoom := 4096, flushRoom := 4096 }
        (start [] none [.packet (dataPacket 1 (List.replicate 512 0x41))])) := by
  refine ⟨fun h => ?_, fun h => ?_, not_disciplined_write_full rfl rfl ?_⟩
  · obtain ⟨-, file, hfile, -⟩ := disciplined_read_iff.mp h
    cases hfile
  · obtain ⟨p, hp, -⟩ := (disciplined_read_cons rfl rfl).mp h
    cases hp
  · rw [dataPacket_eq, List.length_append, List.length_replicate]
    exact Nat.le_refl 516

end Gateway.TFTPServer.Resources
