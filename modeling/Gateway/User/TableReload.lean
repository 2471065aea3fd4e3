/-
  Gateway.User.TableReload

  `TransMsgThread` going through `iplist` while `TFTP_SIGNAL` replaces the table
  (`user/main.c`).

  The handler `Tftp_Sig` runs to completion between two steps of the thread:
  `UpdateCoapclient` stops the clients, `ParsTxt` frees every element and appends
  new ones, and every new entry gets the pid and the `fifo_fd` of its client.  The
  thread holds nothing but the pointer `ptr` across the handler, and nobody tells it
  that the table changed.  As long as the handler runs while `ptr` is NULL, that is
  outside of the traversal, the dispatch is as if one table had been there all
  along (`reload_harmless`); in the middle of the traversal `ptr` is left behind at
  a node that is free (`reload_under_cursor`).

  `dispatch` and `done` are histories that no step looks at.
-/

import Gateway.Iptable.ParsTxt
import Gateway.User.TransMsg

namespace Gateway.User.TableReload

open Gateway.Lib.CString Gateway.Lib.NodeChain Gateway.Lib.Transition
open Gateway.Comm.LinkedList Gateway.Comm.ListRuns Gateway.Iptable.ParsTxt
open Gateway.User.TransMsg (Msg)

/-! ## The handler -/

/-- The loop of `UpdateCoapclient`: the pids that get `COAP_CLOSE_SIGNAL`. -/
def stopClients (iplist : IpList) : Option (List (Option Nat)) := do
  let entries ← walk iplist.list.size.toNat iplist.heap iplist.list.head
  some (entries.map CoapIP.pid)

/-- The loop of `CreatCoapclient`.  `procs` are the pids that `fork` returns and the descriptors
    that `open` returns for the FIFOs of the clients. -/
def startClients : Nat → List (Nat × Nat) → Heap CoapIP → Option Addr → Option (Heap CoapIP)
  | _, _, h, none => some h
  -- `iplist.size` bounds the list, so the fuel is never used up in a table that `Holds`
  | 0, _, _, some _ => none
  | fuel + 1, procs, h, some ptr => do
    let node ← h ptr
    let (pid, fifoFd) ← procs.head?
    let data := { node.data with pid := some pid, fifoFd := some fifoFd }
    startClients fuel procs.tail (setNode h ptr (some { node with data := data })) node.next

/-- `CreatCoapclient`. -/
def creatCoapclient (allocs : List (Option Addr)) (file : List UInt8) (procs : List (Nat × Nat))
    (iplist : IpList) : Option IpList := do
  let iplist ← parsTxt allocs file iplist
  let heap ← startClients iplist.list.size.toNat procs iplist.heap iplist.list.head
  some { iplist with heap := heap }

/-- `UpdateCoapclient`. -/
def updateCoapclient (allocs : List (Option Addr)) (file : List UInt8) (procs : List (Nat × Nat))
    (iplist : IpList) : Option IpList :=
  if 0 < iplist.list.size then do
    let _ ← stopClients iplist
    creatCoapclient allocs file procs iplist
  else creatCoapclient allocs file procs iplist

/-! ## State -/

/-- Where `TransMsgThread` is. -/
inductive Pc where
  /-- `sem_wait` up to `queue_dequeue` -/
  | take
  /-- `if(iplist.size > 0)` -/
  | test
  /-- `ptr = list_head(&iplist)` -/
  | head
  /-- `ptr != NULL` and `write`, or the end of the loop and `free` -/
  | loop
  /-- `ptr = ptr->next` -/
  | next
  deriving DecidableEq, Repr

/-- What happened to a message: the descriptors it was written to, and the descriptors of the
    tables that were there since it was taken. -/
structure Dispatch where
  msg : Msg
  writes : List (Option Nat × Msg)
  tables : List (List (Option Nat))
  deriving DecidableEq, Repr

structure State where
  iplist : IpList
  pc : Pc
  ptr : Option Addr
  coapMsg : Option Msg
  dispatch : Dispatch
  done : List Dispatch

/-- The `fifo_fd`s of the table. -/
def fdsOf (iplist : IpList) : List (Option Nat) :=
  ((walk iplist.list.size.toNat iplist.heap iplist.list.head).getD []).map CoapIP.fifoFd

/-- `TransMsgThread` before its first message. -/
def initState (iplist : IpList) : State where
  iplist := iplist
  pc := .take
  ptr := none
  coapMsg := none
  dispatch := { msg := [], writes := [], tables := [] }
  done := []

/-! ## Steps -/

/-- A message is taken from the queue. -/
def takeStep (s : State) (msg : Msg) : Option State :=
  match s.pc with
  | .take => some { s with
      coapMsg := some msg, pc := .test,
      -- the table at this moment is the first one the message can go to
      dispatch := { msg := msg, writes := [], tables := [fdsOf s.iplist] } }
  | _ => none

/-- A step of the dispatch loop.  Without an entry the message is left as it is. -/
def transStep (s : State) : Option State :=
  match s.pc with
  | .take => none
  | .test =>
    if 0 < s.iplist.list.size then some { s with pc := .head }
    -- `free(coapMsg)` is inside the `if`: the message stays allocated
    else some { s with pc := .take, done := s.done ++ [s.dispatch] }
  | .head => some { s with ptr := s.iplist.list.head, pc := .loop }
  | .loop =>
    match s.ptr with
    | none => some { s with coapMsg := none, pc := .take, done := s.done ++ [s.dispatch] }
    | some ptr => do
      -- a node that was freed in between has no `fifo_fd` to read
      let node ← s.iplist.heap ptr
      let msg ← s.coapMsg
      some { s with
        pc := .next,
        dispatch := { s.dispatch with
          writes := s.dispatch.writes ++ [(node.data.fifoFd, msg)] } }
  | .next => do
    let ptr ← s.ptr
    let node ← s.iplist.heap ptr
    some { s with ptr := node.next, pc := .loop }

/-- `Tftp_Sig`. -/
def tftpSig (allocs : List (Option Addr)) (file : List UInt8) (procs : List (Nat × Nat))
    (s : State) : Option State := do
  let iplist ← updateCoapclient allocs file procs s.iplist
  some { s with
    iplist := iplist,
    dispatch := { s.dispatch with tables := s.dispatch.tables ++ [fdsOf iplist] } }

/-- A step of the thread, or the handler with what its calls return. -/
inductive Act where
  | take (msg : Msg)
  | trans
  | tftpSig (allocs : List (Option Addr)) (file : List UInt8) (procs : List (Nat × Nat))
  deriving DecidableEq, Repr

def step (s : State) : Act → Option State
  | .take msg => takeStep s msg
  | .trans => transStep s
  | .tftpSig allocs file procs => tftpSig allocs file procs s

/-- What `malloc` and `open` return: different addresses that are free or become free when the
    table is emptied, and different descriptors. -/
def Environment (s : State) : Act → Prop
  | .tftpSig allocs _ procs =>
    (∀ a, some a ∈ allocs → s.iplist.heap a = none ∨ InList s.iplist a) ∧
      (allocs.filterMap id).Nodup ∧ (procs.map Prod.snd).Nodup
  | _ => True

/-- The handler runs while the thread is not at an element. -/
def Quiet (s : State) : Act → Prop
  | .tftpSig _ _ _ => s.ptr = none
  | _ => True

/-! ## What is promised -/

/-- An element of the table. -/
def Current (s : State) (c : Addr × CoapIP) : Prop :=
  ∃ cs, Cells s.iplist.heap s.iplist.list cs ∧ c ∈ cs

/-- The message was written exactly once to every client of one of the tables. -/
def Dispatched (d : Dispatch) : Prop :=
  ∃ table ∈ d.tables, table.Nodup ∧ d.writes = table.map fun fd => (fd, d.msg)

/-- The cursor is NULL or at an element, the thread can go on, it writes to nothing but the
    `fifo_fd` of an element, and the messages that are done were dispatched. -/
structure Harmless (s : State) : Prop where
  cursor : s.ptr = none ∨ ∃ c, Current s c ∧ s.ptr = some c.1
  goesOn : s.pc ≠ .take → ∃ s', transStep s = some s'
  writes : ∀ s', transStep s = some s' → s'.dispatch.writes = s.dispatch.writes ∨
    ∃ c, Current s c ∧ s'.dispatch.writes = s.dispatch.writes ++ [(c.2.fifoFd, s.dispatch.msg)]
  done : ∀ d ∈ s.done, Dispatched d

/-! ## The new table -/

theorem startClients_spec {fuel : Nat} {procs : List (Nat × Nat)} {h h' : Heap CoapIP}
    {p : Option Addr} {cs : List (Addr × CoapIP)} (hseg : Seg h p cs none)
    (hnodup : (cs.map Prod.fst).Nodup) (hrun : startClients fuel procs h p = some h') :
    ∃ cs', Seg h' p cs' none ∧ cs'.map Prod.fst = cs.map Prod.fst ∧
      (cs'.map fun c => c.2.fifoFd) = (procs.take cs.length).map (fun proc => some proc.2) ∧
      ∀ b, b ∉ cs.map Prod.fst → h' b = h b := by
  induction cs generalizing fuel procs h p with
  | nil =>
    obtain rfl : p = none := hseg
    rw [startClients] at hrun
    cases hrun
    exact ⟨[], rfl, rfl, rfl, fun b _ => rfl⟩
  | cons c cs ih =>
    obtain ⟨a, x⟩ := c
    -- the rest of the list does not hold `a`, so the update leaves it a list
    obtain ⟨rfl, next, hnode, hrest⟩ := hseg
    obtain ⟨ha, hnodup⟩ := List.nodup_cons.mp hnodup
    cases fuel with
    | zero => cases hrun
    | succ fuel =>
      rw [startClients, hnode] at hrun
      simp only [Option.bind_eq_bind, Option.bind_some] at hrun
      obtain ⟨⟨pid, fifoFd⟩, hproc, hrun⟩ := Option.bind_eq_some_iff.mp hrun
      obtain ⟨procs', rfl⟩ : ∃ procs', procs = (pid, fifoFd) :: procs' :=
        ⟨procs.tail, (List.cons_head?_tail hproc).symm⟩
      obtain ⟨cs', hseg', haddrs, hfds, hframe⟩ := ih (hrest.setNode ha) hnodup hrun
      refine ⟨(a, { x with pid := some pid, fifoFd := some fifoFd }) :: cs',
        ⟨rfl, next, ?_, hseg'⟩, congrArg (a :: ·) haddrs, congrArg (some fifoFd :: ·) hfds, ?_⟩
      · rw [hframe a ha, setNode_self]
      · intro b hb
        rw [List.map_cons, List.mem_cons, not_or] at hb
        rw [hframe b hb.2, setNode_ne _ _ hb.1]

/-- An element of a new table is at an address that `malloc` returned. -/
theorem mem_placed {allocs : List (Option Addr)} {es : List CoapIP} {c : Addr × CoapIP}
    (hc : c ∈ placed allocs es) : some c.1 ∈ allocs := by
  obtain ⟨⟨alloc, x⟩, hzip, halloc⟩ := List.mem_filterMap.mp hc
  obtain ⟨a, rfl, rfl⟩ := Option.map_eq_some_iff.mp halloc
  exact (List.of_mem_zip hzip).1

/-- The handler waits for the old clients, if there are any, and starts new ones. -/
theorem updateCoapclient_creat {allocs : List (Option Addr)} {file : List UInt8}
    {procs : List (Nat × Nat)} {iplist iplist' : IpList}
    (hrun : updateCoapclient allocs file procs iplist = some iplist') :
    creatCoapclient allocs file procs iplist = some iplist' := by
  rw [updateCoapclient] at hrun
  split at hrun
  · obtain ⟨_, -, hrun⟩ := Option.bind_eq_some_iff.mp hrun
    exact hrun
  · exact hrun

/-- After the handler the table is a list again, with different descriptors. -/
theorem updateCoapclient_holds {allocs : List (Option Addr)} {file : List UInt8}
    {procs : List (Nat × Nat)} {iplist iplist' : IpList} {t : Sequence Unit CoapIP}
    (hR : Holds iplist t)
    (hfree : ∀ a, some a ∈ allocs → iplist.heap a = none ∨ InList iplist a)
    (hnodup : (allocs.filterMap id).Nodup) (hfds : (procs.map Prod.snd).Nodup)
    (hrun : updateCoapclient allocs file procs iplist = some iplist') :
    ∃ t', Holds iplist' t' ∧ (t'.cells.map fun c => c.2.fifoFd).Nodup ∧
      ∀ c ∈ t'.cells, some c.1 ∈ allocs := by
  obtain ⟨iplist₁, hpars, hcreat⟩ := Option.bind_eq_some_iff.mp (updateCoapclient_creat hrun)
  obtain ⟨h', hstart, hcreat⟩ := Option.bind_eq_some_iff.mp hcreat
  cases hcreat
  have hfree' : ∀ a, some a ∈ allocs → iplist.heap a = none ∨ a ∈ t.cells.map Prod.fst := by
    intro a ha
    refine (hfree a ha).imp_right fun ⟨cs, hseg, hmem⟩ => ?_
    rwa [← seg_unique hseg hR.cells.chain]
  -- first the table from the file, then the clients in its nodes
  obtain ⟨-, hR₁⟩ := parsTxt_holds hR hfree' hnodup hpars
  generalize hcells : placed allocs (entriesOf (linesOf file)) = cs at hR₁
  obtain ⟨cs', hseg, haddrs, hcsFds, -⟩ := startClients_spec hR₁.cells.chain hR₁.cells.nodup hstart
  have hlen : cs'.length = cs.length := by
    have hl := congrArg List.length haddrs
    rwa [List.length_map, List.length_map] at hl
  refine ⟨{ t.clean with cells := cs' }, ⟨⟨?_, hseg, ?_, ?_⟩, hR₁.destroy_eq, hR₁.out_eq⟩, ?_, ?_⟩
  · rw [haddrs]
    exact hR₁.cells.nodup
  · rw [haddrs]
    exact hR₁.cells.tail_eq
  · show _ = (cs'.length : Int)
    rw [hlen]
    exact hR₁.cells.size_eq
  -- the descriptors are a part of what `open` returned
  · show (cs'.map fun c => c.2.fifoFd).Nodup
    have hsome : (procs.take cs.length).map (fun proc => some proc.2)
        = ((procs.map Prod.snd).take cs.length).map some := by
      rw [← List.map_take, List.map_map]
      rfl
    rw [hcsFds, hsome]
    exact ((List.take_sublist _ _).nodup hfds).map (Option.some_injective _)
  · intro c hc
    have hmem : c.1 ∈ cs.map Prod.fst := haddrs ▸ List.mem_map_of_mem hc
    obtain ⟨d, hd, hda⟩ := List.mem_map.mp hmem
    rw [← hda]
    exact mem_placed (hcells ▸ hd)

/-! ## The invariant -/

variable {s s' : State} {t : Sequence Unit CoapIP}

/-- Where the thread is in a table with these elements, and what it wrote. -/
def Place (s : State) (cells : List (Addr × CoapIP)) : Prop :=
  match s.pc with
  | .take => s.ptr = none
  | .test | .head =>
    s.ptr = none ∧ s.coapMsg = some s.dispatch.msg ∧ s.dispatch.writes = []
  | .loop =>
    s.coapMsg = some s.dispatch.msg ∧
      ((s.ptr = none ∧ Dispatched s.dispatch) ∨
        ∃ front c back, cells = front ++ c :: back ∧ s.ptr = some c.1 ∧
          s.dispatch.writes = front.map fun c => (c.2.fifoFd, s.dispatch.msg))
  | .next =>
    s.coapMsg = some s.dispatch.msg ∧
      ∃ front c back, cells = front ++ c :: back ∧ s.ptr = some c.1 ∧
        s.dispatch.writes = (front ++ [c]).map fun c => (c.2.fifoFd, s.dispatch.msg)

structure Inv (s : State) (t : Sequence Unit CoapIP) : Prop where
  holds : Holds s.iplist t
  nodup : (t.cells.map fun c => c.2.fifoFd).Nodup
  tables : s.pc ≠ .take → (t.cells.map fun c => c.2.fifoFd) ∈ s.dispatch.tables
  place : Place s t.cells
  done : ∀ d ∈ s.done, Dispatched d

/-- The history holds the descriptors of the elements. -/
theorem fdsOf_eq {iplist : IpList} (hR : Holds iplist t) :
    fdsOf iplist = t.cells.map fun c => c.2.fifoFd := by
  have hfuel : t.cells.length ≤ iplist.list.size.toNat := by
    rw [hR.cells.size_eq]
    exact Nat.le_refl _
  rw [fdsOf, hR.cells.chain.walk_eq hfuel, Option.getD_some, List.map_map]
  rfl

/-- The node of an element, and the pointer to the next one. -/
theorem Inv.node (h : Inv s t) {front back : List (Addr × CoapIP)} {c : Addr × CoapIP}
    (hcells : t.cells = front ++ c :: back) :
    ∃ next, s.iplist.heap c.1 = some ⟨c.2, next⟩ ∧ next = back.head?.map Prod.fst := by
  have hchain := h.holds.cells.chain
  rw [hcells] at hchain
  obtain ⟨r, -, -, next, hnode, hback⟩ := seg_append.mp hchain
  refine ⟨next, hnode, ?_⟩
  cases back with
  | nil => exact hback
  | cons d back => exact hback.1

theorem Inv.head (h : Inv s t) : s.iplist.list.head = t.cells.head?.map Prod.fst := by
  have hchain := h.holds.cells.chain
  cases hcells : t.cells with
  | nil =>
    rw [hcells] at hchain
    exact hchain
  | cons c cs =>
    rw [hcells] at hchain
    exact hchain.1

/-- At the start of the loop and behind each element: the next one, or the whole table is
    written. -/
theorem place_loop {cells front back : List (Addr × CoapIP)} {d : Dispatch}
    (hcells : cells = front ++ back) (hnodup : (cells.map fun c => c.2.fifoFd).Nodup)
    (htable : (cells.map fun c => c.2.fifoFd) ∈ d.tables)
    (hwrites : d.writes = front.map fun c => (c.2.fifoFd, d.msg)) :
    (back.head?.map Prod.fst = none ∧ Dispatched d) ∨
      ∃ front c back', cells = front ++ c :: back' ∧ back.head?.map Prod.fst = some c.1 ∧
        d.writes = front.map fun c => (c.2.fifoFd, d.msg) := by
  cases back with
  | nil =>
    rw [List.append_nil] at hcells
    refine Or.inl ⟨rfl, _, htable, hnodup, ?_⟩
    rw [hwrites, hcells, List.map_map]
    rfl
  | cons c back => exact Or.inr ⟨front, c, back, hcells, rfl, hwrites⟩

theorem takeStep_inv {msg : Msg} (h : Inv s t) (hstep : takeStep s msg = some s') : Inv s' t := by
  have hplace := h.place
  rw [takeStep] at hstep
  cases hpc : s.pc <;> rw [hpc] at hstep <;> cases hstep
  rw [Place, hpc] at hplace
  refine ⟨h.holds, h.nodup, fun _ => ?_, ⟨hplace, rfl, rfl⟩, h.done⟩
  show _ ∈ [fdsOf s.iplist]
  rw [fdsOf_eq h.holds]
  exact List.mem_singleton_self _

/-- A finished dispatch joins the others. -/
theorem done_concat {done : List Dispatch} {d : Dispatch} (hdone : ∀ d ∈ done, Dispatched d)
    (hd : Dispatched d) : ∀ d' ∈ done ++ [d], Dispatched d' := by
  intro d' hd'
  rcases List.mem_append.mp hd' with hd' | hd'
  · exact hdone d' hd'
  · rw [List.mem_singleton.mp hd']
    exact hd

theorem Inv.current (h : Inv s t) {c : Addr × CoapIP} (hc : c ∈ t.cells) : Current s c :=
  ⟨t.cells, h.holds.cells, hc⟩

/-- What a step of the thread adds to the writes: nothing, or a write to an element. -/
def WritesAt (s s' : State) : Prop :=
  s'.dispatch.writes = s.dispatch.writes ∨
    ∃ c, Current s c ∧ s'.dispatch.writes = s.dispatch.writes ++ [(c.2.fifoFd, s.dispatch.msg)]

/-- The thread can take a step, keeps the invariant and writes at most to an element. -/
def Turns (s : State) (t : Sequence Unit CoapIP) : Prop :=
  ∃ s', transStep s = some s' ∧ Inv s' t ∧ WritesAt s s'

theorem Inv.turns_test (h : Inv s t) (hpc : s.pc = .test) : Turns s t := by
  have hplace := h.place
  rw [Place, hpc] at hplace
  have htables := h.tables (by rw [hpc]; exact Pc.noConfusion)
  by_cases hsize : 0 < s.iplist.list.size
  · refine ⟨{ s with pc := .head }, ?_, ?_, Or.inl rfl⟩
    · rw [transStep, hpc]
      exact if_pos hsize
    · exact ⟨h.holds, h.nodup, fun _ => htables, hplace, h.done⟩
  · -- there is no entry, so every client got the message
    have hsizeEq := h.holds.cells.size_eq
    have hnil : t.cells = [] := List.length_eq_zero_iff.mp (by omega)
    rw [hnil] at htables
    refine ⟨{ s with pc := .take, done := s.done ++ [s.dispatch] }, ?_, ?_, Or.inl rfl⟩
    · rw [transStep, hpc]
      exact if_neg hsize
    · exact ⟨h.holds, h.nodup, fun hne => absurd rfl hne, hplace.1,
        done_concat h.done ⟨[], htables, List.nodup_nil, hplace.2.2⟩⟩

theorem Inv.turns_head (h : Inv s t) (hpc : s.pc = .head) : Turns s t := by
  have hplace := h.place
  rw [Place, hpc] at hplace
  have htables := h.tables (by rw [hpc]; exact Pc.noConfusion)
  refine ⟨{ s with ptr := s.iplist.list.head, pc := .loop }, ?_, ?_, Or.inl rfl⟩
  · rw [transStep, hpc]
  · refine ⟨h.holds, h.nodup, fun _ => htables, ⟨hplace.2.1, ?_⟩, h.done⟩
    show (s.iplist.list.head = none ∧ _) ∨ _
    rw [h.head]
    exact place_loop (List.nil_append _).symm h.nodup htables hplace.2.2

theorem Inv.turns_loop (h : Inv s t) (hpc : s.pc = .loop) : Turns s t := by
  have hplace := h.place
  rw [Place, hpc] at hplace
  have htables := h.tables (by rw [hpc]; exact Pc.noConfusion)
  obtain ⟨hmsg, ⟨hptr, hdisp⟩ | ⟨front, c, back, hcells, hptr, hwrites⟩⟩ := hplace
  · -- the end of the list: the message is dispatched
    refine ⟨{ s with coapMsg := none, pc := .take, done := s.done ++ [s.dispatch] }, ?_, ?_,
      Or.inl rfl⟩
    · rw [transStep, hpc]
      simp only [hptr]
    · exact ⟨h.holds, h.nodup, fun hne => absurd rfl hne, hptr, done_concat h.done hdisp⟩
  -- an element: its node is there, and the message was not freed
  · obtain ⟨next, hnode, -⟩ := h.node hcells
    have hc : c ∈ t.cells := by
      rw [hcells]
      exact List.mem_append_right _ (List.mem_cons_self ..)
    refine ⟨{ s with
      pc := .next,
      dispatch := { s.dispatch with
        writes := s.dispatch.writes ++ [(c.2.fifoFd, s.dispatch.msg)] } }, ?_, ?_,
      Or.inr ⟨c, h.current hc, rfl⟩⟩
    · rw [transStep, hpc]
      simp only [hptr, hnode, hmsg, Option.bind_eq_bind, Option.bind_some]
    · refine ⟨h.holds, h.nodup, fun _ => htables, ⟨hmsg, front, c, back, hcells, hptr, ?_⟩, h.done⟩
      rw [List.map_append, ← hwrites]
      rfl

theorem Inv.turns_next (h : Inv s t) (hpc : s.pc = .next) : Turns s t := by
  have hplace := h.place
  rw [Place, hpc] at hplace
  have htables := h.tables (by rw [hpc]; exact Pc.noConfusion)
  obtain ⟨hmsg, front, c, back, hcells, hptr, hwrites⟩ := hplace
  obtain ⟨next, hnode, hnext⟩ := h.node hcells
  refine ⟨{ s with ptr := next, pc := .loop }, ?_, ?_, Or.inl rfl⟩
  · rw [transStep, hpc]
    simp only [hptr, hnode, Option.bind_eq_bind, Option.bind_some]
  · refine ⟨h.holds, h.nodup, fun _ => htables, ⟨hmsg, ?_⟩, h.done⟩
    show (next = none ∧ _) ∨ _
    rw [hnext]
    have hsplit : t.cells = (front ++ [c]) ++ back := by
      rw [hcells, List.append_assoc]
      rfl
    exact place_loop hsplit h.nodup htables hwrites

theorem Inv.turns (h : Inv s t) (hpc : s.pc ≠ .take) : Turns s t := by
  cases hat : s.pc with
  | take => exact absurd hat hpc
  | test => exact h.turns_test hat
  | head => exact h.turns_head hat
  | loop => exact h.turns_loop hat
  | next => exact h.turns_next hat

/-- Before its next message the thread takes no step of the loop. -/
theorem pc_ne_take (hstep : transStep s = some s') : s.pc ≠ .take := by
  intro hpc
  rw [transStep, hpc] at hstep
  cases hstep

theorem transStep_inv (h : Inv s t) (hstep : transStep s = some s') : Inv s' t := by
  obtain ⟨s₁, hstep₁, hinv, -⟩ := h.turns (pc_ne_take hstep)
  obtain rfl := Option.some_inj.mp (hstep₁.symm.trans hstep)
  exact hinv

/-- Outside of the traversal the table can be replaced. -/
theorem tftpSig_inv {allocs : List (Option Addr)} {file : List UInt8} {procs : List (Nat × Nat)}
    (h : Inv s t) (henv : Environment s (.tftpSig allocs file procs)) (hptr : s.ptr = none)
    (hstep : tftpSig allocs file procs s = some s') : ∃ t', Inv s' t' := by
  obtain ⟨hfree, hnodup, hfds⟩ := henv
  obtain ⟨iplist', hupdate, hstep⟩ := Option.bind_eq_some_iff.mp hstep
  cases hstep
  obtain ⟨t', hR', hnodup', -⟩ := updateCoapclient_holds h.holds hfree hnodup hfds hupdate
  refine ⟨t', hR', hnodup', fun _ => ?_, ?_, h.done⟩
  · show _ ∈ s.dispatch.tables ++ [fdsOf iplist']
    rw [fdsOf_eq hR']
    exact List.mem_append_right _ (List.mem_singleton_self _)
  · have hplace := h.place
    unfold Place at hplace ⊢
    cases hpc : s.pc with
    | loop =>
      rw [hpc] at hplace
      obtain ⟨hmsg, ⟨-, table, htable, hd⟩ | ⟨front, c, back, -, hc, -⟩⟩ := hplace
      · exact ⟨hmsg, Or.inl ⟨hptr, table, List.mem_append_left _ htable, hd⟩⟩
      · rw [hptr] at hc
        cases hc
    | next =>
      rw [hpc] at hplace
      obtain ⟨-, front, c, back, -, hc, -⟩ := hplace
      rw [hptr] at hc
      cases hc
    | _ =>
      rw [hpc] at hplace
      exact hplace

/-! ## Reloads outside of the traversal -/

/-- The cursor is at an element, or nowhere. -/
theorem Inv.cursor (h : Inv s t) : s.ptr = none ∨ ∃ c, Current s c ∧ s.ptr = some c.1 := by
  have hplace := h.place
  have hat : ∀ {front back : List (Addr × CoapIP)} {c : Addr × CoapIP},
      t.cells = front ++ c :: back → Current s c := by
    intro front back c hcells
    apply h.current
    rw [hcells]
    exact List.mem_append_right _ (List.mem_cons_self ..)
  unfold Place at hplace
  cases hpc : s.pc with
  | take =>
    rw [hpc] at hplace
    exact Or.inl hplace
  | test | head =>
    rw [hpc] at hplace
    exact Or.inl hplace.1
  | loop =>
    rw [hpc] at hplace
    obtain ⟨-, ⟨hptr, -⟩ | ⟨front, c, back, hcells, hptr, -⟩⟩ := hplace
    · exact Or.inl hptr
    · exact Or.inr ⟨c, hat hcells, hptr⟩
  | next =>
    rw [hpc] at hplace
    obtain ⟨-, front, c, back, hcells, hptr, -⟩ := hplace
    exact Or.inr ⟨c, hat hcells, hptr⟩

/-- What the invariant says about one state. -/
theorem Inv.harmless (h : Inv s t) : Harmless s := by
  refine ⟨h.cursor, fun hpc => ?_, fun s' hstep => ?_, h.done⟩
  · obtain ⟨s', hstep, -⟩ := h.turns hpc
    exact ⟨s', hstep⟩
  · obtain ⟨s₁, hstep₁, -, hwrites⟩ := h.turns (pc_ne_take hstep)
    obtain rfl := Option.some_inj.mp (hstep₁.symm.trans hstep)
    exact hwrites

/-- From any table, in every run of messages and reloads in which the handler only runs while
    the thread is not at an element: every state is harmless. -/
theorem reload_harmless {iplist : IpList} (hR : Holds iplist t)
    (hfds : (t.cells.map fun c => c.2.fifoFd).Nodup)
    (hr : Reachable step (fun s a => Environment s a ∧ Quiet s a) (initState iplist) s) :
    Harmless s := by
  -- the list changes with every reload, so the invariant is about some list
  have hinv : ∃ t, Inv s t := by
    have hinit : Inv (initState iplist) t := by
      refine ⟨hR, hfds, fun hne => absurd rfl hne, rfl, fun d hd => ?_⟩
      cases hd
    refine @Reachable.invariant _ _ _ _ _ _ (fun s => ∃ t, Inv s t) hr ⟨t, hinit⟩ ?_
    · rintro s a s' ⟨t, h⟩ ⟨henv, hquiet⟩ hstep
      cases a with
      | take msg => exact ⟨t, takeStep_inv h hstep⟩
      | trans => exact ⟨t, transStep_inv h hstep⟩
      | tftpSig allocs file procs => exact tftpSig_inv h henv hquiet hstep
  obtain ⟨t', h⟩ := hinv
  exact h.harmless

/-- A handler that runs while the thread is at an element leaves the cursor behind at a node that
    is free, unless `malloc` returned its address again. -/
theorem reload_under_cursor {allocs : List (Option Addr)} {file : List UInt8}
    {procs : List (Nat × Nat)} {ptr : Addr} (h : Inv s t)
    (henv : Environment s (.tftpSig allocs file procs)) (hptr : s.ptr = some ptr)
    (hstep : tftpSig allocs file procs s = some s') (hnew : some ptr ∉ allocs) :
    ¬ Harmless s' := by
  obtain ⟨hfree, hnodup, hfds⟩ := henv
  obtain ⟨iplist', hupdate, hstep⟩ := Option.bind_eq_some_iff.mp hstep
  cases hstep
  obtain ⟨t', hR', -, hallocs⟩ := updateCoapclient_holds h.holds hfree hnodup hfds hupdate
  rintro ⟨hcursor, -⟩
  -- the cursor is not NULL, and an element would be at an address from `malloc`
  rcases hcursor with hnone | ⟨c, ⟨cs, hcells, hc⟩, hat⟩
  · rw [show s.ptr = none from hnone] at hptr
    cases hptr
  · have hsame : cs = t'.cells := seg_unique hcells.chain hR'.cells.chain
    have hat : s.ptr = some c.1 := hat
    rw [hptr] at hat
    obtain rfl := Option.some_inj.mp hat
    exact hnew (hallocs c (hsame ▸ hc))

/-! ## A reload in the middle -/

/-- A client with pid 100 and descriptor 5, in the node at address 1. -/
def oldClient : CoapIP := { entry [] [] with pid := some 100, fifoFd := some 5 }

/-- The line `10.0.0.2/hello#`. -/
def helloLine : List UInt8 :=
  cstr ['1', '0', '.', '0', '.', '0', '.', '2', '/', 'h', 'e', 'l', 'l', 'o', '#', '\n']

/-- The table with that client. -/
def oneClient : IpList :=
  { heap := fun a => if a = 1 then some ⟨oldClient, none⟩ else none,
    list := { size := 1, head := some 1, tail := some 1 },
    destroy := some fun _ _ => (), out := () }

theorem oneClient_holds : Holds oneClient
    { cells := [(1, oldClient)], destroy := some fun _ _ => (), out := () } :=
  ⟨⟨by decide, ⟨rfl, none, rfl, rfl⟩, rfl, rfl⟩, rfl, rfl⟩

/-- The handler, with the table `10.0.0.2/hello#` in the file. -/
def reload : Act := .tftpSig [some 2] helloLine [(101, 6)]

/-- A message is taken, and the table is replaced before the loop starts. -/
theorem reload_harmless_before_loop :
    ∃ s, exec step (initState oneClient) [.take [0x24], .trans, reload] = some s ∧
      s.dispatch.tables = [[some 5], [some 6]] ∧ Harmless s := by
  have htables : (exec step (initState oneClient) [.take [0x24], .trans, reload]).map
      (fun s => s.dispatch.tables) = some [[some 5], [some 6]] := by
    decide
  obtain ⟨s, hrun, hs⟩ := Option.map_eq_some_iff.mp htables
  refine ⟨s, hrun, hs, reload_harmless oneClient_holds (by decide)
    (reachable_of_allSteps Reachable.init ?_ hrun)⟩
  refine ⟨⟨trivial, trivial⟩, fun s₁ h₁ => ?_⟩
  cases h₁
  refine ⟨⟨trivial, trivial⟩, fun s₂ h₂ => ?_⟩
  cases h₂
  refine ⟨⟨⟨fun a ha => Or.inl ?_, by decide, by decide⟩, rfl⟩, fun _ _ => trivial⟩
  rw [Option.some_inj.mp (List.mem_singleton.mp ha)]
  rfl

/-- The same reload when the loop is at the first element: the cursor is left at a free node. -/
theorem reload_not_harmless :
    ¬ ∀ (iplist : IpList) (t : Sequence Unit CoapIP) (s : State), Holds iplist t →
      (t.cells.map fun c => c.2.fifoFd).Nodup →
      Reachable step Environment (initState iplist) s → Harmless s := by
  intro hall
  have hend : (exec step (initState oneClient) [.take [0x24], .trans, .trans, reload]).map
      (fun s => (s.ptr, (s.iplist.heap 1).isNone)) = some (some 1, true) := by
    decide
  obtain ⟨s, hrun, hs⟩ := Option.map_eq_some_iff.mp hend
  obtain ⟨hptr, hfree⟩ := Prod.mk.inj hs
  have henv : AllSteps step Environment (initState oneClient)
      [.take [0x24], .trans, .trans, reload] := by
    refine ⟨trivial, fun s₁ h₁ => ?_⟩
    cases h₁
    refine ⟨trivial, fun s₂ h₂ => ?_⟩
    cases h₂
    refine ⟨trivial, fun s₃ h₃ => ?_⟩
    cases h₃
    refine ⟨⟨fun a ha => Or.inl ?_, by decide, by decide⟩, fun _ _ => trivial⟩
    rw [Option.some_inj.mp (List.mem_singleton.mp ha)]
    rfl
  have hharm := hall oneClient _ s oneClient_holds (by decide)
    (reachable_of_allSteps Reachable.init henv hrun)
  rcases hharm.cursor with hnone | ⟨c, ⟨cs, hcells, hc⟩, hat⟩
  · rw [hptr] at hnone
    cases hnone
  · rw [hptr] at hat
    have hnode := hcells.chain.allocated (List.mem_map_of_mem hc)
    rw [← Option.some_inj.mp hat] at hnode
    exact hnode (Option.isNone_iff_eq_none.mp hfree)

end Gateway.User.TableReload
