/-
  Gateway.User.Upload

  How a new table comes into effect: from a TFTP upload of `IPtable.txt`
  (`TFTPServer/tftpserver.c`) over the signal to the parent to the clients that are
  running (`user/main.c`, `iptable/coap_iptable.c`).

  The server and the parent are two processes with the file between them.  The parent
  may handle a signal at any time, also while the server has the file open for the next
  upload; `TFTP_SIGNAL` is a real-time signal, so none gets lost.  In every state that is
  reached the clients are those of `iplist`, and once every signal is handled and no
  transfer is under way they are those of the file (`clients_of_table`).

  So an upload of less than 512 bytes replaces the clients, and one of 512 bytes or more
  ends all of them (`upload_installs`).

  All this is for calls that succeed (`Environment`) and clients that end by the parent's
  signal only: a `malloc` that fails behind `fopen` leaves an empty file without a signal,
  and a `fork` that fails an entry without a client.
-/

import Gateway.Iptable.TableText
import Gateway.TFTPServer.Tftpd
import Gateway.User.TableReload

namespace Gateway.User.Upload

open Gateway.Lib.BlockMem Gateway.Lib.CString Gateway.Lib.NodeChain Gateway.Lib.Transition
open Gateway.Comm.LinkedList Gateway.Comm.ListRuns
open Gateway.Iptable.ParsTxt Gateway.Iptable.TableText
open Gateway.TFTPServer.TftpUtils Gateway.TFTPServer.TftpServer
open Gateway.TFTPServer.RequestDecode
open Gateway.TFTPServer.Tftpd (Transfer Phase resume_cases requestStep_cases receiveStep_cases
  read_end write_cases storedOf)
open Gateway.User.TableReload (stopClients startClients creatCoapclient updateCoapclient)

variable {F : Type} [DecidableEq F] {resolve : List UInt8 → F}

/-! ## State -/

/-- The file that `ParsTxt` opens, as it names it. -/
def tableName : List UInt8 :=
  cstr ['I', 'P', 't', 'a', 'b', 'l', 'e', '.', 't', 'x', 't']

/-- A process that runs `CoapClient`, with what it uses of the entry it was forked with. -/
structure Client where
  pid : Option Nat
  ip : List UInt8
  path : List UInt8
  deriving DecidableEq, Repr

structure State (F : Type) where
  server : TFTPServer.Tftpd.State F
  /-- how many signals the parent has handled -/
  handled : Nat
  iplist : IpList
  clients : List Client

/-- The client of an entry. -/
def clientOf (x : CoapIP) : Client := ⟨x.pid, x.ip, x.path⟩

/-- The clients that `CreatCoapclient` has forked for this table. -/
def forked (iplist : IpList) : List Client :=
  ((walk iplist.list.size.toNat iplist.heap iplist.list.head).getD []).map clientOf

/-! ## Steps -/

/-- The clients that get `COAP_CLOSE_SIGNAL`; the parent waits for them to exit. -/
def stopped (iplist : IpList) : Option (List (Option Nat)) :=
  if 0 < iplist.list.size then stopClients iplist else some []

/-- `Tftp_Sig`.  Without the file the parent exits. -/
def tftpSig (resolve : List UInt8 → F) (s : State F) (allocs : List (Option Addr))
    (procs : List (Nat × Nat)) : Option (State F) :=
  if s.handled < s.server.signals then do
    let file ← s.server.files (resolve tableName)
    let pids ← stopped s.iplist
    let iplist ← updateCoapclient allocs file procs s.iplist
    some { s with
      handled := s.handled + 1, iplist := iplist,
      clients := (s.clients.filter fun c => c.pid ∉ pids) ++ forked iplist }
  else none

/-- A step of the server, or the handler with what its calls return. -/
inductive Act where
  | tftpd (a : TFTPServer.Tftpd.Act)
  | tftpSig (allocs : List (Option Addr)) (procs : List (Nat × Nat))

def step (resolve : List UInt8 → F) (s : State F) : Act → Option (State F)
  | .tftpd a => (TFTPServer.Tftpd.step resolve s.server a).map fun server =>
      { s with server := server }
  | .tftpSig allocs procs => tftpSig resolve s allocs procs

/-- The gateway behind its start, with the table that `CreatCoapclient` has read. -/
def initState (files : F → Option (List UInt8)) (iplist : IpList) : State F where
  server := TFTPServer.Tftpd.initState files
  handled := 0
  iplist := iplist
  clients := forked iplist

/-- `malloc`, `fork` and `open` do not fail: the server gets its arguments, and the parent gets
    different addresses, free or in the old table, and as many processes as it needs. -/
def Environment (resolve : List UInt8 → F) (s : State F) : Act → Prop
  | .tftpd (.request _ _ _ env _) => env.mallocOk = true
  | .tftpd (.receive _) => True
  | .tftpSig allocs procs => ∃ addrs : List Addr, allocs = addrs.map some ∧ addrs.Nodup ∧
      (∀ a ∈ addrs, s.iplist.heap a = none ∨ InList s.iplist a) ∧
      ∀ file, s.server.files (resolve tableName) = some file →
        file.length < addrs.length ∧ file.length < procs.length

/-! ## The handler -/

/-- The entries with the processes that were started for them. -/
def installed (cs : List (Addr × CoapIP)) (procs : List (Nat × Nat)) : List (Addr × CoapIP) :=
  List.zipWith
    (fun c proc => (c.1, { c.2 with pid := some proc.1, fifoFd := some proc.2 })) cs procs

theorem installed_fst {cs : List (Addr × CoapIP)} {procs : List (Nat × Nat)}
    (h : cs.length ≤ procs.length) : (installed cs procs).map Prod.fst = cs.map Prod.fst := by
  induction cs generalizing procs with
  | nil => rfl
  | cons c cs ih =>
    cases procs with
    | nil => cases h
    | cons proc procs => exact congrArg (c.1 :: ·) (ih (Nat.le_of_succ_le_succ h))

/-- What an entry says, apart from its process. -/
def fieldsOfEntry (x : CoapIP) : List UInt8 × List UInt8 := (x.ip, x.path)

theorem installed_fields {cs : List (Addr × CoapIP)} {procs : List (Nat × Nat)}
    (h : cs.length ≤ procs.length) :
    (installed cs procs).map (fun c => fieldsOfEntry c.2) = cs.map fun c => fieldsOfEntry c.2 := by
  induction cs generalizing procs with
  | nil => rfl
  | cons c cs ih =>
    cases procs with
    | nil => cases h
    | cons proc procs =>
      exact congrArg (fieldsOfEntry c.2 :: ·) (ih (Nat.le_of_succ_le_succ h))

/-- The loop of `CreatCoapclient` starts a client for every entry. -/
theorem startClients_eq {fuel : Nat} {procs : List (Nat × Nat)} {h : Heap CoapIP}
    {p : Option Addr} {cs : List (Addr × CoapIP)} (hseg : Seg h p cs none)
    (hnodup : (cs.map Prod.fst).Nodup) (hfuel : cs.length ≤ fuel)
    (hprocs : cs.length ≤ procs.length) :
    ∃ h', startClients fuel procs h p = some h' ∧ Seg h' p (installed cs procs) none ∧
      ∀ b, b ∉ cs.map Prod.fst → h' b = h b := by
  induction cs generalizing fuel procs h p with
  | nil =>
    obtain rfl : p = none := hseg
    cases fuel <;> exact ⟨h, rfl, rfl, fun b _ => rfl⟩
  | cons c cs ih =>
    obtain ⟨a, x⟩ := c
    obtain ⟨rfl, next, hnode, hrest⟩ := hseg
    obtain ⟨ha, hnodup⟩ := List.nodup_cons.mp hnodup
    cases fuel with
    | zero => cases hfuel
    | succ fuel =>
      cases procs with
      | nil => cases hprocs
      | cons proc procs =>
        obtain ⟨pid, fifoFd⟩ := proc
        -- the rest of the list does not hold `a`, so the update leaves it a list
        obtain ⟨h', hrun, hseg', hframe⟩ := @ih fuel procs
          (setNode h a (some ⟨{ x with pid := some pid, fifoFd := some fifoFd }, next⟩)) next
          (hrest.setNode ha) hnodup (Nat.le_of_succ_le_succ hfuel) (Nat.le_of_succ_le_succ hprocs)
        refine ⟨h', ?_, ⟨rfl, next, ?_, hseg'⟩, ?_⟩
        · rw [startClients, hnode]
          exact hrun
        · rw [hframe a ha, setNode_self]
        · intro b hb
          rw [List.map_cons, List.mem_cons, not_or] at hb
          rw [hframe b hb.2, setNode_ne _ _ hb.1]

section Handler

variable {iplist iplist' : IpList} {t : Sequence Unit CoapIP} {addrs : List Addr}
  {procs : List (Nat × Nat)} {file : List UInt8}

theorem walk_table (hR : Holds iplist t) :
    walk iplist.list.size.toNat iplist.heap iplist.list.head = some (t.cells.map Prod.snd) := by
  apply hR.cells.chain.walk_eq
  rw [hR.cells.size_eq]
  exact Nat.le_refl _

theorem forked_eq (hR : Holds iplist t) : forked iplist = t.cells.map fun c => clientOf c.2 := by
  rw [forked, walk_table hR, Option.getD_some, List.map_map]
  rfl

/-- The pids of the table are the ones that are signalled. -/
theorem stopped_eq (hR : Holds iplist t) :
    stopped iplist = some (t.cells.map fun c => c.2.pid) := by
  have hsize := hR.cells.size_eq
  rw [stopped]
  split
  · rw [stopClients, walk_table hR]
    exact congrArg some List.map_map
  · have hnil : t.cells = [] := List.length_eq_zero_iff.mp (by omega)
    rw [hnil]
    rfl

theorem updateCoapclient_eq_creat (hR : Holds iplist t) (allocs : List (Option Addr)) :
    updateCoapclient allocs file procs iplist = creatCoapclient allocs file procs iplist := by
  rw [updateCoapclient]
  split
  · rw [stopClients, walk_table hR]
    rfl
  · rfl

/-- The new table holds what the file says. -/
theorem creatCoapclient_spec (hR : Holds iplist t)
    (hfree : ∀ a ∈ addrs, iplist.heap a = none ∨ a ∈ t.cells.map Prod.fst) (hnodup : addrs.Nodup)
    (henough : file.length < addrs.length) (hprocs : file.length < procs.length)
    (hok : ∀ s ∈ linesOf file, parseLine s ≠ none) :
    ∃ iplist' t', creatCoapclient (addrs.map some) file procs iplist = some iplist' ∧
      Holds iplist' t' ∧
      t'.cells.map (fun c => fieldsOfEntry c.2)
        = (entriesOf (linesOf file)).map fieldsOfEntry := by
  have hfree' : ∀ a, some a ∈ addrs.map some →
      iplist.heap a = none ∨ a ∈ t.cells.map Prod.fst := by
    intro a ha
    obtain ⟨a', ha', heq⟩ := List.mem_map.mp ha
    rw [← Option.some.inj heq]
    exact hfree a' ha'
  have hnodup' : ((addrs.map some).filterMap id).Nodup := by
    rw [List.filterMap_map]
    simpa using hnodup
  obtain ⟨iplist₁, hpars⟩ := parsTxt_total hR hfree' hnodup' hok
  obtain ⟨-, hR₁⟩ := parsTxt_holds hR hfree' hnodup' hpars
  have hsnd := placed_entriesOf henough
  have hcells : (placed (addrs.map some) (entriesOf (linesOf file))).length ≤ procs.length := by
    have hlen := congrArg List.length hsnd
    rw [List.length_map] at hlen
    have hcount := List.length_filterMap_le (fun s => (parseLine s).join) (linesOf file)
    have hlines := readLines_length_le (file.length + 1) file
    rw [hlen]
    exact Nat.le_trans hcount (Nat.le_trans hlines hprocs)
  have hfuel : (placed (addrs.map some) (entriesOf (linesOf file))).length
      ≤ iplist₁.list.size.toNat := by
    rw [hR₁.cells.size_eq]
    exact Nat.le_refl _
  obtain ⟨heap, hstart, hseg, -⟩ :=
    startClients_eq hR₁.cells.chain hR₁.cells.nodup hfuel hcells
  refine ⟨{ iplist₁ with heap := heap },
    { t.clean with cells := installed (placed (addrs.map some) (entriesOf (linesOf file))) procs },
    ?_, ⟨⟨?_, hseg, ?_, ?_⟩, hR₁.destroy_eq, hR₁.out_eq⟩, ?_⟩
  · rw [creatCoapclient, hpars]
    simp only [Option.bind_eq_bind, Option.bind_some, hstart]
  · rw [installed_fst hcells]
    exact hR₁.cells.nodup
  · rw [installed_fst hcells]
    exact hR₁.cells.tail_eq
  · have hlen := congrArg List.length (installed_fst hcells)
    rw [List.length_map, List.length_map] at hlen
    show _ = ((installed _ procs).length : Int)
    rw [hlen]
    exact hR₁.cells.size_eq
  · show (installed _ procs).map _ = _
    rw [installed_fields hcells, ← congrArg (List.map fieldsOfEntry) hsnd, List.map_map]
    rfl

/-- A table that was read leaves no array. -/
theorem creatCoapclient_ok {allocs : List (Option Addr)} (hR : Holds iplist t)
    (hfree : ∀ a, some a ∈ allocs → iplist.heap a = none ∨ a ∈ t.cells.map Prod.fst)
    (hnodup : (allocs.filterMap id).Nodup)
    (hrun : creatCoapclient allocs file procs iplist = some iplist') :
    ∀ s ∈ linesOf file, parseLine s ≠ none := by
  obtain ⟨iplist₁, hpars, -⟩ := Option.bind_eq_some_iff.mp hrun
  exact (parsTxt_holds hR hfree hnodup hpars).1

end Handler

/-! ## The invariant -/

/-- The server has the table open. -/
def Writing (resolve : List UInt8 → F) (s : State F) : Prop :=
  ∃ tr received, s.server.phase = .transferring tr received ∧ tr.call = .write ∧
    tr.file = resolve tableName

structure Inv (resolve : List UInt8 → F) (s : State F) (t : Sequence Unit CoapIP) : Prop where
  holds : Holds s.iplist t
  clients : s.clients = forked s.iplist
  handled : s.handled ≤ s.server.signals
  waiting : ∀ tr received, s.server.phase = .transferring tr received →
    tr.env.mallocOk = true ∧ (tr.call = .read → tr.old = s.server.files tr.file) ∧
      (tr.call = .write → tr.env.fopenOk = true)
  current : s.handled = s.server.signals → ¬ Writing resolve s →
    ∃ file, s.server.files (resolve tableName) = some file ∧
      t.cells.map (fun c => fieldsOfEntry c.2) = (entriesOf (linesOf file)).map fieldsOfEntry

section Steps

variable {s s' : State F} {t : Sequence Unit CoapIP} {a : Act}

/-- A transfer goes on. -/
theorem Inv.resume (h : Inv resolve s t) {tr : Transfer F} {received : List Recv}
    {server : TFTPServer.Tftpd.State F}
    (hphase : ∀ tr' received', s.server.phase = .transferring tr' received' →
      tr' = tr ∧ (tr.call = .write → tr.env.fopenOk = true))
    (hm : tr.env.mallocOk = true)
    (hold : tr.call = .read ∨ tr.env.fopenOk = false → tr.old = s.server.files tr.file)
    (hs : TFTPServer.Tftpd.resume s.server tr received = some server) :
    Inv resolve { s with server := server } t := by
  cases hcall : tr.call with
  | read =>
    obtain ⟨hfiles, hsignals⟩ := TFTPServer.Tftpd.resume_read hcall (hold (Or.inl hcall)) hs
    refine ⟨h.holds, h.clients, ?_, fun tr' received' hphase' => ?_, fun heq hidle => ?_⟩
    · show s.handled ≤ server.signals
      rw [hsignals]
      exact h.handled
    · obtain ⟨rfl, -⟩ := TFTPServer.Tftpd.resume_waits hs hphase'
      refine ⟨hm, fun _ => ?_, fun hwrite => ?_⟩
      · show tr'.old = server.files tr'.file
        rw [hfiles]
        exact hold (Or.inl hcall)
      · rw [hcall] at hwrite
        cases hwrite
    · have hidle' : ¬ Writing resolve s := by
        rintro ⟨tr', received', hphase', hwrite, -⟩
        obtain ⟨rfl, -⟩ := hphase tr' received' hphase'
        rw [hcall] at hwrite
        cases hwrite
      obtain ⟨file, hfile, hcells⟩ := h.current (heq.trans hsignals) hidle'
      exact ⟨file, (congrFun hfiles (resolve tableName)).trans hfile, hcells⟩
  | write =>
    rcases TFTPServer.Tftpd.resume_write hcall hm hs with
      ⟨hf, hfiles, hnext, hsignals⟩ | ⟨hf, -, hfiles, hnext, hsignals⟩ |
      ⟨-, r, rest, -, -, hnext, hsignals⟩
    · -- the server is dead, and the file is as it was
      rw [hold (Or.inr hf), Function.update_eq_self] at hfiles
      refine ⟨h.holds, h.clients, ?_, fun tr' received' hphase' => ?_, fun heq hidle => ?_⟩
      · show s.handled ≤ server.signals
        rw [hsignals]
        exact h.handled
      · rw [hnext] at hphase'
        cases hphase'
      · have hidle' : ¬ Writing resolve s := by
          rintro ⟨tr', received', hphase', -, -⟩
          obtain ⟨-, hopen⟩ := hphase tr' received' hphase'
          rw [hopen hcall] at hf
          cases hf
        obtain ⟨file, hfile, hcells⟩ := h.current (heq.trans hsignals) hidle'
        exact ⟨file, (congrFun hfiles (resolve tableName)).trans hfile, hcells⟩
    · -- the file is empty: if it is the table, the server is writing it
      refine ⟨h.holds, h.clients, ?_, fun tr' received' hphase' => ?_, fun heq hidle => ?_⟩
      · show s.handled ≤ server.signals
        rw [hsignals]
        exact h.handled
      · rw [hnext] at hphase'
        cases hphase'
        refine ⟨hm, fun hread => ?_, fun _ => hf⟩
        rw [hcall] at hread
        cases hread
      · have hname : tr.file ≠ resolve tableName := fun hname => hidle ⟨tr, [], hnext, hcall, hname⟩
        have hidle' : ¬ Writing resolve s := by
          rintro ⟨tr', received', hphase', -, hname'⟩
          obtain ⟨rfl, -⟩ := hphase tr' received' hphase'
          exact hname hname'
        obtain ⟨file, hfile, hcells⟩ := h.current (heq.trans hsignals) hidle'
        refine ⟨file, ?_, hcells⟩
        show server.files (resolve tableName) = some file
        rw [hfiles, Function.update_of_ne hname.symm]
        exact hfile
    · -- there is a signal to handle
      have hle := h.handled
      refine ⟨h.holds, h.clients, ?_, fun tr' received' hphase' => ?_, fun heq hidle => ?_⟩
      · show s.handled ≤ server.signals
        omega
      · rw [hnext] at hphase'
        cases hphase'
      · replace heq : s.handled = server.signals := heq
        omega

theorem step_tftpd_inv {a : TFTPServer.Tftpd.Act} {server : TFTPServer.Tftpd.State F}
    (h : Inv resolve s t) (ha : Environment resolve s (.tftpd a))
    (hs : TFTPServer.Tftpd.step resolve s.server a = some server) :
    Inv resolve { s with server := server } t := by
  cases a with
  | request d sockets fileName env spare =>
    obtain ⟨hphase, ⟨hfiles, hnext, hsignals⟩ | ⟨call, name, hrun⟩⟩ := requestStep_cases hs
    · refine ⟨h.holds, h.clients, ?_, fun tr received hphase' => ?_, fun heq hidle => ?_⟩
      · show s.handled ≤ server.signals
        rw [hsignals]
        exact h.handled
      · rw [hnext] at hphase'
        cases hphase'
      · have hidle' : ¬ Writing resolve s := by
          rintro ⟨tr, received, hphase', -⟩
          rw [hphase] at hphase'
          cases hphase'
        obtain ⟨file, hfile, hcells⟩ := h.current (heq.trans hsignals) hidle'
        exact ⟨file, (congrFun hfiles (resolve tableName)).trans hfile, hcells⟩
    · have hbuffer : Inv resolve { s with server := { s.server with
          tftpRecvBuffer := recvRequest s.server.tftpRecvBuffer d } } t :=
        ⟨h.holds, h.clients, h.handled, h.waiting, h.current⟩
      refine @Inv.resume _ _ resolve _ t hbuffer ⟨call, name, env, spare, _, _⟩ [] server
        (fun tr received hphase' => ?_) ha (fun _ => rfl) hrun
      have hlisten := hphase.symm.trans hphase'
      cases hlisten
  | receive r =>
    obtain ⟨tr, received, hphase, hrun⟩ := receiveStep_cases hs
    obtain ⟨hm, hread, hwrite⟩ := h.waiting tr received hphase
    refine h.resume (fun tr' received' hphase' => ?_) hm (fun hor => ?_) hrun
    · rw [hphase] at hphase'
      cases hphase'
      exact ⟨rfl, hwrite⟩
    · cases hcall : tr.call with
      | read => exact hread hcall
      | write =>
        rcases hor with hread' | hf
        · rw [hcall] at hread'
          cases hread'
        · rw [hwrite hcall] at hf
          cases hf

omit [DecidableEq F] in
/-- The handler replaces the clients by those of the file. -/
theorem tftpSig_spec (h : Inv resolve s t) {allocs : List (Option Addr)} {procs : List (Nat × Nat)}
    (ha : Environment resolve s (.tftpSig allocs procs))
    (hs : tftpSig resolve s allocs procs = some s') :
    ∃ t', Inv resolve s' t' ∧ s'.server = s.server ∧ s'.handled = s.handled + 1 ∧
      ∃ file, s.server.files (resolve tableName) = some file ∧
        t'.cells.map (fun c => fieldsOfEntry c.2)
          = (entriesOf (linesOf file)).map fieldsOfEntry := by
  obtain ⟨addrs, rfl, hnodup, hfree, henough⟩ := ha
  rw [tftpSig] at hs
  split at hs
  · next hlt =>
    obtain ⟨file, hfile, hs⟩ := Option.bind_eq_some_iff.mp hs
    obtain ⟨pids, hpids, hs⟩ := Option.bind_eq_some_iff.mp hs
    obtain ⟨iplist', hupdate, hs⟩ := Option.bind_eq_some_iff.mp hs
    obtain rfl := Option.some_inj.mp hs
    obtain ⟨haddrs, hprocs⟩ := henough file hfile
    have hfree' : ∀ a ∈ addrs, s.iplist.heap a = none ∨ a ∈ t.cells.map Prod.fst := by
      intro a ha
      refine (hfree a ha).imp_right fun ⟨cs, hseg, hmem⟩ => ?_
      rwa [← seg_unique hseg h.holds.cells.chain]
    rw [updateCoapclient_eq_creat h.holds] at hupdate
    have hok := creatCoapclient_ok h.holds
      (fun a ha => by
        obtain ⟨a', ha', heq⟩ := List.mem_map.mp ha
        rw [← Option.some.inj heq]
        exact hfree' a' ha')
      (by rw [List.filterMap_map]; simpa using hnodup) hupdate
    obtain ⟨iplist'', t', hcreat, hR', hcells⟩ :=
      creatCoapclient_spec h.holds hfree' hnodup haddrs hprocs hok
    obtain rfl : iplist' = iplist'' := Option.some_inj.mp (hupdate.symm.trans hcreat)
    -- every client that was running was in the old table
    rw [stopped_eq h.holds] at hpids
    obtain rfl := Option.some_inj.mp hpids
    have hgone : (s.clients.filter fun c => c.pid ∉ t.cells.map fun c => c.2.pid) = [] := by
      rw [h.clients, forked_eq h.holds, List.filter_eq_nil_iff]
      intro c hc hnot
      obtain ⟨cell, hcell, rfl⟩ := List.mem_map.mp hc
      rw [decide_eq_true_eq] at hnot
      exact hnot (List.mem_map.mpr ⟨cell, hcell, rfl⟩)
    refine ⟨t', ⟨hR', ?_, hlt, h.waiting, fun heq hidle => ⟨file, hfile, hcells⟩⟩, rfl, rfl, file,
      hfile, hcells⟩
    show (s.clients.filter _) ++ forked iplist' = forked iplist'
    rw [hgone, List.nil_append]
  · cases hs

theorem step_inv (h : Inv resolve s t) (ha : Environment resolve s a)
    (hs : step resolve s a = some s') : ∃ t', Inv resolve s' t' := by
  cases a with
  | tftpd a =>
    obtain ⟨server, hserver, rfl⟩ := Option.map_eq_some_iff.mp hs
    exact ⟨t, step_tftpd_inv h ha hserver⟩
  | tftpSig allocs procs =>
    obtain ⟨t', hinv, -⟩ := tftpSig_spec h ha hs
    exact ⟨t', hinv⟩

end Steps

/-! ## The text of the table -/

section Text

variable {text : List UInt8}

theorem lineFine_ok (hnul : 0 ∉ text) (hfine : ∀ line ∈ fileLines text, LineFine line) :
    ∀ s ∈ linesOf text, parseLine s ≠ none := by
  rw [linesOf_ok_iff hnul]
  intro line hline
  have hline' := nul_not_mem_line hnul hline
  exact ((lineFine_iff hline' (hfine line hline).first).mp (hfine line hline)).1

/-- What `ParsTxt` reads is what the lines stand for. -/
theorem entriesOf_fine (hnul : 0 ∉ text) (hfine : ∀ line ∈ fileLines text, LineFine line) :
    entriesOf (linesOf text) = (fileLines text).filterMap tableEntry := by
  rw [entriesOf_linesOf hnul, List.filterMap_eq_flatMap_toList, List.flatMap, List.flatMap,
    List.map_congr_left fun line hline =>
      (hfine line hline).parsed_eq (nul_not_mem_line hnul hline)]

/-- What is left of an upload. -/
def uploaded (text : List UInt8) : List UInt8 := if text.length < 512 then text else []

theorem uploaded_ok (hnul : 0 ∉ text) (hfine : ∀ line ∈ fileLines text, LineFine line) :
    ∀ s ∈ linesOf (uploaded text), parseLine s ≠ none := by
  rw [uploaded]
  split
  · exact lineFine_ok hnul hfine
  · exact fun s hs => absurd hs List.not_mem_nil

theorem entriesOf_uploaded (hnul : 0 ∉ text) (hfine : ∀ line ∈ fileLines text, LineFine line) :
    entriesOf (linesOf (uploaded text))
      = if text.length < 512 then (fileLines text).filterMap tableEntry else [] := by
  rw [uploaded]
  split
  · exact entriesOf_fine hnul hfine
  · rfl

theorem uploaded_length (text : List UInt8) : (uploaded text).length ≤ text.length := by
  rw [uploaded]
  split
  · exact Nat.le_refl _
  · exact Nat.zero_le _

end Text

/-! ## Runs -/

/-- The parent has read the table. -/
structure Started (resolve : List UInt8 → F) (files : F → Option (List UInt8))
    (iplist : IpList) : Prop where
  table : ∃ file addrs procs, files (resolve tableName) = some file ∧ List.Nodup addrs ∧
    file.length < addrs.length ∧ file.length < procs.length ∧
    creatCoapclient (addrs.map some) file procs newIpList = some iplist

section Runs

variable {files : F → Option (List UInt8)} {iplist : IpList} {s s' : State F}

omit [DecidableEq F] in
theorem inv_init (h : Started resolve files iplist) :
    ∃ t, Inv resolve (initState files iplist) t := by
  obtain ⟨file, addrs, procs, hfile, hnodup, haddrs, hprocs, hcreat⟩ := h
  have hok := creatCoapclient_ok newIpList_holds (fun _ _ => Or.inl rfl)
    (by rw [List.filterMap_map]; simpa using hnodup) hcreat
  obtain ⟨iplist', t, hcreat', hR, hcells⟩ := creatCoapclient_spec newIpList_holds
    (fun _ _ => Or.inl rfl) hnodup haddrs hprocs hok
  obtain rfl : iplist = iplist' := Option.some_inj.mp (hcreat.symm.trans hcreat')
  refine ⟨t, hR, rfl, Nat.le_refl 0, fun tr received hphase => ?_, fun _ _ => ⟨file, hfile, hcells⟩⟩
  cases hphase

theorem reachable_inv (hstart : Started resolve files iplist)
    (h : Reachable (step resolve) (Environment resolve) (initState files iplist) s) :
    (∃ t, Inv resolve s t) ∧ TFTPServer.Tftpd.Sized s.server := by
  refine @Reachable.invariant _ _ _ _ _ _
    (fun s => (∃ t, Inv resolve s t) ∧ TFTPServer.Tftpd.Sized s.server) h
    ⟨inv_init hstart, TFTPServer.Tftpd.sized_init files⟩ ?_
  rintro s a s' ⟨⟨t, hinv⟩, hsized⟩ ha hs
  refine ⟨step_inv hinv ha hs, ?_⟩
  cases a with
  | tftpd a =>
    obtain ⟨server, hserver, rfl⟩ := Option.map_eq_some_iff.mp hs
    exact TFTPServer.Tftpd.step_sized hsized hserver
  | tftpSig allocs procs =>
    obtain ⟨t', -, hserver, -⟩ := tftpSig_spec hinv ha hs
    rw [hserver]
    exact hsized

omit [DecidableEq F] in
/-- The clients say what the elements say. -/
theorem Inv.clients_fields {t : Sequence Unit CoapIP} (h : Inv resolve s t) :
    s.clients.map (fun c => (c.ip, c.path)) = t.cells.map fun c => fieldsOfEntry c.2 := by
  rw [h.clients, forked_eq h.holds, List.map_map]
  rfl

/-- The only file is the table `twoLines`. -/
def twoLinesFiles (name : List UInt8) : Option (List UInt8) :=
  if name = tableName then some twoLines else none

theorem twoLines_fine : ∀ line ∈ fileLines twoLines, LineFine line := by
  intro line hline
  have hall : ∀ line ∈ fileLines twoLines, line.length ≤ buffSize - 1 ∧
      ∀ p ∈ line.findIdx? (· == 0x2F), p < coapIpLen := by
    decide
  exact LineFine.of_short (hall line hline).1 (hall line hline).2

/-- A parent that has read it, and has other addresses left. -/
theorem twoLines_started : ∃ iplist, Started id twoLinesFiles iplist ∧
    ∀ a ∈ List.range' 100 21, iplist.heap a = none := by
  have hrun : ((creatCoapclient ((List.range 21).map some) twoLines
      ((List.range 21).map fun i => (i, i)) newIpList).map fun iplist =>
        decide (∀ a ∈ List.range' 100 21, (iplist.heap a).isNone)) = some true := by
    decide +kernel
  obtain ⟨iplist, hcreat, hfree⟩ := Option.map_eq_some_iff.mp hrun
  refine ⟨iplist, ⟨twoLines, List.range 21, _, rfl, List.nodup_range, by decide, by decide, hcreat⟩,
    fun a ha => ?_⟩
  exact Option.isNone_iff_eq_none.mp (of_decide_eq_true hfree a ha)

omit [DecidableEq F] in
/-- The handler runs when there is a signal and the file can be read. -/
theorem Inv.tftpSig_enabled {t : Sequence Unit CoapIP} (h : Inv resolve s t)
    (hlt : s.handled < s.server.signals) {file : List UInt8}
    (hfile : s.server.files (resolve tableName) = some file)
    (hok : ∀ s ∈ linesOf file, parseLine s ≠ none)
    {addrs : List Addr} {procs : List (Nat × Nat)} (hnodup : addrs.Nodup)
    (hfree : ∀ a ∈ addrs, s.iplist.heap a = none ∨ InList s.iplist a)
    (haddrs : file.length < addrs.length) (hprocs : file.length < procs.length) :
    ∃ s', tftpSig resolve s (addrs.map some) procs = some s' := by
  have hfree' : ∀ a ∈ addrs, s.iplist.heap a = none ∨ a ∈ t.cells.map Prod.fst := by
    intro a ha
    refine (hfree a ha).imp_right fun ⟨cs, hseg, hmem⟩ => ?_
    rwa [← seg_unique hseg h.holds.cells.chain]
  obtain ⟨iplist', t', hcreat, -, -⟩ :=
    creatCoapclient_spec h.holds hfree' hnodup haddrs hprocs hok
  simp only [tftpSig, if_pos hlt, hfile, stopped_eq h.holds, updateCoapclient_eq_creat h.holds,
    hcreat, Option.bind_eq_bind, Option.bind_some]
  exact ⟨_, rfl⟩

/-- A file that is uploaded while the server listens: the request and its packet. -/
theorem Inv.upload {t : Sequence Unit CoapIP} (h : Inv resolve s t)
    (hsized : TFTPServer.Tftpd.Sized s.server) (hlisten : s.server.phase = .listening)
    {d name fileName : List UInt8} {env : Env} (spare : Bool) (text : List UInt8) (hne : d ≠ [])
    (hdec : Decodes d) (hreq : requestOf d = .write name)
    (hsame : resolve name = resolve tableName) (hlen : fileName.length = fileNameLen)
    (hf : env.fopenOk = true) (hm : env.mallocOk = true) (hwrite : 512 ≤ env.fwriteRoom)
    (hflush : 512 ≤ env.flushRoom) :
    ∃ server, exec (step resolve) s [.tftpd (.request d ⟨true, true⟩ fileName env spare),
        .tftpd (.receive (.packet (dataPacket 1 (text.take 512))))]
          = some { s with server := server } ∧
      Inv resolve { s with server := server } t ∧ server.phase = .listening ∧
      server.files = Function.update s.server.files (resolve tableName) (some (uploaded text)) ∧
      s.handled < server.signals := by
  obtain ⟨server₁, tr, hs₁, hfiles₁, hphase₁, hcall, hname, henv, hsignals₁⟩ :=
    TFTPServer.Tftpd.request_write hlisten hsized.buffer hne hdec hreq hlen hf hm spare
  have hinv₁ : Inv resolve { s with server := server₁ } t :=
    @step_tftpd_inv _ _ resolve s t (.request d ⟨true, true⟩ fileName env spare) server₁ h hm hs₁
  obtain ⟨server₂, hs₂, hfiles₂, hphase₂, hsignals₂⟩ :=
    @TFTPServer.Tftpd.receive_write _ _ server₁ tr (.packet (dataPacket 1 (text.take 512))) hphase₁
      hcall (by rw [henv, hf]) (by rw [henv, hm]) (by rw [henv]; omega)
  rw [hname, henv, TFTPServer.Tftpd.storedOf_data hwrite hflush, hfiles₁,
    Function.update_idem, hsame] at hfiles₂
  have hinv₂ : Inv resolve { s with server := server₂ } t :=
    @step_tftpd_inv _ _ resolve { s with server := server₁ } t (.receive _) server₂ hinv₁ trivial
      hs₂
  have hle := h.handled
  refine ⟨server₂, ?_, hinv₂, hphase₂, hfiles₂, by omega⟩
  have hstep₁ : step resolve s (.tftpd (.request d ⟨true, true⟩ fileName env spare))
      = some { s with server := server₁ } := Option.map_eq_some_iff.mpr ⟨server₁, hs₁, rfl⟩
  have hstep₂ : step resolve { s with server := server₁ }
      (.tftpd (.receive (.packet (dataPacket 1 (text.take 512)))))
      = some { s with server := server₂ } := Option.map_eq_some_iff.mpr ⟨server₂, hs₂, rfl⟩
  simp only [exec, hstep₁, hstep₂]

/-- An upload of the table, from any state that is reached while the server listens: a complete
    request for it, under any name that stands for the file, and a text without NUL whose lines
    all fit into the arrays of `ParsTxt` (`LineFine`), while `socket`, `bind`, `fopen`, `malloc`,
    `fwrite`, the flush, `fork` and `open` succeed and there are addresses and processes enough.
    With less than 512 bytes it stores the text, and the handler replaces all clients by those of
    its lines; from 512 bytes on it leaves an empty file, and the handler ends all clients. -/
theorem upload_installs (hstart : Started resolve files iplist)
    (h : Reachable (step resolve) (Environment resolve) (initState files iplist) s)
    (hlisten : s.server.phase = .listening) {d name fileName text : List UInt8}
    {env : Env} {addrs : List Addr} {procs : List (Nat × Nat)} (spare : Bool)
    (hd : d.length ≤ tftpRecvBufferLen) (hcomplete : TFTPServer.RequestDecode.Complete d)
    (hreq : requestOf d = .write name) (hsame : resolve name = resolve tableName)
    (hlen : fileName.length = fileNameLen) (hf : env.fopenOk = true) (hm : env.mallocOk = true)
    (hwrite : 512 ≤ env.fwriteRoom) (hflush : 512 ≤ env.flushRoom) (hnul : 0 ∉ text)
    (hfine : ∀ line ∈ fileLines text, LineFine line) (hnodup : addrs.Nodup)
    (hfree : ∀ a ∈ addrs, s.iplist.heap a = none ∨ InList s.iplist a)
    (haddrs : text.length < addrs.length) (hprocs : text.length < procs.length) :
    ∃ s', exec (step resolve) s ([.tftpd (.request d ⟨true, true⟩ fileName env spare),
        .tftpd (.receive (.packet (dataPacket 1 (text.take 512))))] ++
        [.tftpSig (addrs.map some) procs]) = some s' ∧
      s'.server.phase = .listening ∧
      s'.server.files = Function.update s.server.files (resolve tableName) (some (uploaded text)) ∧
      s'.clients.map (fun c => (c.ip, c.path))
        = (if text.length < 512 then (fileLines text).filterMap tableEntry else []).map
            fieldsOfEntry := by
  obtain ⟨⟨t, hinv⟩, hsized⟩ := reachable_inv hstart h
  have hne : d ≠ [] := by
    rintro rfl
    cases hcomplete.1
  obtain ⟨server, hrun, hinv₂, hphase, hfiles, hlt⟩ := hinv.upload hsized hlisten spare text hne
    (decodes_of_complete hd hcomplete) hreq hsame hlen hf hm hwrite hflush
  -- the parent reads what was stored
  have hfile : server.files (resolve tableName) = some (uploaded text) := by
    rw [hfiles, Function.update_self]
  have hle := uploaded_length text
  have haddrs' : (uploaded text).length < addrs.length := by omega
  have hprocs' : (uploaded text).length < procs.length := by omega
  obtain ⟨s₃, hs₃⟩ := hinv₂.tftpSig_enabled hlt hfile (uploaded_ok hnul hfine) hnodup hfree haddrs'
    hprocs'
  have henvironment : Environment resolve { s with server := server }
      (.tftpSig (addrs.map some) procs) := by
    refine ⟨addrs, rfl, hnodup, hfree, fun file hfile' => ?_⟩
    obtain rfl : uploaded text = file := Option.some_inj.mp (hfile.symm.trans hfile')
    exact ⟨haddrs', hprocs'⟩
  obtain ⟨t₃, hinv₃, hserver₃, -, file, hfile', hcells⟩ := tftpSig_spec hinv₂ henvironment hs₃
  obtain rfl : uploaded text = file := Option.some_inj.mp (hfile.symm.trans hfile')
  refine ⟨s₃, ?_, ?_, ?_, ?_⟩
  · rw [exec_concat, hrun]
    exact hs₃
  · rw [hserver₃]
    exact hphase
  · rw [hserver₃]
    exact hfiles
  · rw [hinv₃.clients_fields, hcells, entriesOf_uploaded hnul hfine]

/-- A write request for the table. -/
def tableRequest : List UInt8 := 0 :: 2 :: (tableName ++ [0])

/-- The table is uploaded again, and the client replaced. -/
theorem upload_installs_twoLines : ∃ s s' : State (List UInt8), ∃ as,
    exec (step id) s as = some s' ∧ s'.server.files tableName = some twoLines ∧
      s'.clients.length = 1 := by
  obtain ⟨iplist, hstart, hfree⟩ := twoLines_started
  obtain ⟨s', hrun, -, hfiles, hclients⟩ := @upload_installs _ _ id _ _ _ hstart .init rfl
    tableRequest tableName (List.replicate 30 0) twoLines ⟨true, true, 4096, 4096⟩ (List.range' 100 21)
    ((List.range 21).map fun i => (i, i)) true (by decide) ⟨by decide, Or.inr ⟨11, rfl, by decide⟩⟩
    rfl rfl List.length_replicate rfl rfl (by decide) (by decide) (by decide) twoLines_fine
    List.nodup_range' (fun a ha => Or.inl (hfree a ha)) (by decide) (by decide)
  refine ⟨_, s', _, hrun, ?_, ?_⟩
  · rw [hfiles, id, Function.update_self]
    rfl
  · have hlen := congrArg List.length hclients
    rw [List.length_map] at hlen
    rw [hlen]
    decide

end Runs

end Gateway.User.Upload
