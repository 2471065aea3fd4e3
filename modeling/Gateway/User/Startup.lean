/-
  Gateway.User.Startup

  The start-up handshake between `CreatCoapclient` (`user/main.c`) and the clients
  it forks (`CoapClient` in `coapClient/coapClient.c`).

  For every entry the parent forks a client, creates the FIFO with the client's pid
  in its name unless there is one, and opens it for writing; the client opens the
  same FIFO for reading.  An `open` of a FIFO waits for the other side, but it
  fails when there is no FIFO, and then the client exits.  The signal that was to
  tell the client that the FIFO is there is commented out on both sides.

  `step` is one step of the parent or of one client, so the runs are all orders in
  which they are scheduled.  `fork`, `mkfifo` and everything the client does before
  its `open` succeed.  `iplist` does not change in its length while it is gone
  through, so `ptr` is an index.  A FIFO stays when its processes are gone, so there
  may be FIFOs before the start.
-/

import Mathlib.Logic.Function.Basic
import Gateway.Iptable.ParsTxt
import Gateway.Lib.Transition

namespace Gateway.User.Startup

open Gateway.Lib.Transition
open Gateway.Iptable.ParsTxt (CoapIP entry)

/-! ## The model -/

/-- `GetfifoName`: the name in `nameBuf`, `/tmp/%d_fifo`. -/
def getfifoName (key : Nat) : List Char :=
  ['/', 't', 'm', 'p', '/'] ++ Nat.toDigits 10 key ++ ['_', 'f', 'i', 'f', 'o']

/-- Where `CreatCoapclient` is, with `pid`. -/
inductive ParentPc where
  | fork
  | access (pid : Nat)
  | mkfifo (pid : Nat)
  /-- before `open(fifo, O_WRONLY)` -/
  | openFifo (pid : Nat)
  /-- in `open`, where it waits for a reader -/
  | opening (pid : Nat)
  | exited
  deriving DecidableEq, Repr

/-- Where a client is. -/
inductive ClientPc where
  /-- before `open(fifo, O_RDONLY)` -/
  | openFifo
  /-- in `open`, where it waits for a writer -/
  | opening
  /-- behind `open` -/
  | reading
  | exited
  deriving DecidableEq, Repr

structure State where
  iplist : List CoapIP
  ptr : Nat
  pc : ParentPc
  fifos : List Char → Bool
  clients : Nat → Option ClientPc
  files : Nat → Option (List Char)

/-- At the start of the loop: in the entries of `ParsTxt` no pid and no descriptor is written
    yet, and there may be FIFOs. -/
def initState (iplist : List CoapIP) (fifos : List Char → Bool) : State where
  iplist := iplist.map fun e => { e with pid := none, fifoFd := none }
  ptr := 0
  pc := .fork
  fifos := fifos
  clients := fun _ => none
  files := fun _ => none

/-- The client holds its FIFO open for reading; inside of `open` it already does. -/
def Reads (s : State) (pid : Nat) : Prop :=
  s.clients pid = some .opening ∨ s.clients pid = some .reading

/-- The parent holds the FIFO open for writing. -/
def Writes (s : State) (pid : Nat) : Prop :=
  s.pc = .opening pid ∨ ∃ fd ∈ (s.iplist.filterMap CoapIP.fifoFd), s.files fd = some (getfifoName pid)

instance (s : State) (pid : Nat) : Decidable (Reads s pid) :=
  inferInstanceAs (Decidable (_ ∨ _))

instance (s : State) (pid : Nat) : Decidable (Writes s pid) :=
  inferInstanceAs (Decidable (_ ∨ _))

/-- A step of `CreatCoapclient`; `result` is what `fork` or `open` returns, a pid or a descriptor
    that is not in use. -/
def parentStep (s : State) (result : Nat) : Option State :=
  match s.pc with
  | .fork =>
    -- `fork` returns a pid that no process has; the client starts at its `open`
    if s.ptr < s.iplist.length ∧ 0 < result ∧ s.clients result = none then
      some { s with
        iplist := s.iplist.modify s.ptr fun e => { e with pid := some result },
        clients := Function.update s.clients result (some .openFifo), pc := .access result }
    else none
  | .access pid =>
    -- `access(fifo,F_OK)==-1`
    some { s with pc := if s.fifos (getfifoName pid) then .openFifo pid else .mkfifo pid }
  | .mkfifo pid =>
    some { s with fifos := Function.update s.fifos (getfifoName pid) true, pc := .openFifo pid }
  | .openFifo pid =>
    some { s with pc := if s.fifos (getfifoName pid) then .opening pid else .exited }
  | .opening pid =>
    -- `open` for writing waits for a reader
    if Reads s pid ∧ s.files result = none then
      some { s with
        iplist := s.iplist.modify s.ptr fun e => { e with fifoFd := some result },
        files := Function.update s.files result (some (getfifoName pid)),
        ptr := s.ptr + 1, pc := .fork }
    else none
  | .exited => none

/-- A step of the client `pid`. -/
def clientStep (s : State) (pid : Nat) : Option State :=
  match s.clients pid with
  | some .openFifo =>
    let pc := if s.fifos (getfifoName pid) then ClientPc.opening else .exited
    some { s with clients := Function.update s.clients pid (some pc) }
  | some .opening =>
    -- `open` for reading waits for a writer
    if Writes s pid then
      some { s with clients := Function.update s.clients pid (some .reading) }
    else none
  | _ => none

/-- Which process takes a step. -/
inductive Act where
  | parent (result : Nat)
  | client (pid : Nat)
  deriving DecidableEq, Repr

def step (s : State) : Act → Option State
  | .parent result => parentStep s result
  | .client pid => clientStep s pid

/-! ## What is promised -/

/-- The descriptor is that of the FIFO of this client, and this client alone reads it. -/
structure Connected (s : State) (pid fd : Nat) : Prop where
  file : s.files fd = some (getfifoName pid)
  reader : Reads s pid
  alone : ∀ pid', Reads s pid' → getfifoName pid' = getfifoName pid → pid' = pid

/-- No client exited because its FIFO was missing, the parent waits for no client that exited,
    and at the end every entry has a pid of its own and a descriptor connected to its client. -/
structure Handshake (s : State) : Prop where
  noneExited : ∀ pid, s.clients pid ≠ some .exited
  noneLost : ∀ pid, s.pc = .opening pid → s.clients pid ≠ some .exited
  finished : s.pc = .fork → s.ptr = s.iplist.length →
    (s.iplist.map CoapIP.pid).Nodup ∧ ∀ e ∈ s.iplist, ∃ pid fd, e.pid = some pid ∧
      e.fifoFd = some fd ∧ Connected s pid fd

/-- A client opens its FIFO after it was created. -/
def InTime (s : State) : Act → Prop
  | .client pid => s.clients pid = some .openFifo → s.fifos (getfifoName pid) = true
  | .parent _ => True

/-! ## Names and readers -/

variable {s s' : State}

/-- Different pids have different FIFOs. -/
theorem getfifoName_inj {a b : Nat} (h : getfifoName a = getfifoName b) : a = b := by
  have hdigits : Nat.toDigits 10 a = Nat.toDigits 10 b := by
    rw [getfifoName, getfifoName, List.append_assoc, List.append_assoc] at h
    exact List.append_cancel_right (List.append_cancel_left h)
  rw [← @Nat.ofDigitChars_ten_toDigits a, hdigits, Nat.ofDigitChars_ten_toDigits]

/-- A reader stays one when another client changes. -/
theorem Reads.update {pid pid' : Nat} {pc : Option ClientPc} (h : Reads s pid) (hne : pid ≠ pid')
    (hs : s'.clients = Function.update s.clients pid' pc) : Reads s' pid := by
  rw [Reads, hs, Function.update_of_ne hne]
  exact h

/-! ## The invariant -/

/-- The parent is at an entry with this pid. -/
def AtEntry (s : State) (pid : Nat) : Prop := ∃ e, s.iplist[s.ptr]? = some e ∧ e.pid = some pid

/-- Where the parent is, and what holds there. -/
def Place (s : State) : Prop :=
  match s.pc with
  | .fork => True
  | .access pid | .mkfifo pid => AtEntry s pid
  | .openFifo pid | .opening pid => AtEntry s pid ∧ s.fifos (getfifoName pid) = true
  | .exited => False

structure Inv (s : State) : Prop where
  noneExited : ∀ pid, s.clients pid ≠ some .exited
  known : ∀ (i : Nat) (e : CoapIP) (pid : Nat), s.iplist[i]? = some e → e.pid = some pid → s.clients pid ≠ none
  own : ∀ (i j : Nat) (e e' : CoapIP) (pid : Nat), s.iplist[i]? = some e →
    s.iplist[j]? = some e' → e.pid = some pid → e'.pid = some pid → i = j
  ptr_le : s.ptr ≤ s.iplist.length
  done : ∀ i, i < s.ptr → ∃ e pid fd, s.iplist[i]? = some e ∧ e.pid = some pid ∧
    e.fifoFd = some fd ∧ s.files fd = some (getfifoName pid) ∧ Reads s pid
  place : Place s

theorem inv_init (iplist : List CoapIP) (fifos : List Char → Bool) :
    Inv (initState iplist fifos) := by
  have hpid : ∀ (i : Nat) (e : CoapIP), (initState iplist fifos).iplist[i]? = some e → e.pid = none := by
    intro i e he
    obtain ⟨e', -, rfl⟩ := List.mem_map.mp (List.mem_of_getElem? he)
    rfl
  refine ⟨fun pid hexited => (by cases hexited), fun i e pid he hp => ?_, fun i j e e' pid he _ hp _ => ?_,
    Nat.zero_le _, fun i hi => absurd hi (Nat.not_lt_zero i), trivial⟩
  · rw [hpid i e he] at hp
    cases hp
  · rw [hpid i e he] at hp
    cases hp

/-- An entry that is changed at `ptr`, or another one that stays. -/
theorem getElem?_modify_cases {l : List CoapIP} {ptr i : Nat} {f : CoapIP → CoapIP} {e : CoapIP}
    (h : (l.modify ptr f)[i]? = some e) :
    (i = ptr ∧ ∃ e', l[i]? = some e' ∧ e = f e') ∨ (i ≠ ptr ∧ l[i]? = some e) := by
  rw [List.getElem?_modify] at h
  obtain ⟨e', he', rfl⟩ := Option.map_eq_some_iff.mp h
  by_cases hi : ptr = i
  · exact Or.inl ⟨hi.symm, e', he', if_pos hi⟩
  · rw [if_neg hi]
    exact Or.inr ⟨fun h => hi h.symm, he'⟩

theorem getElem?_modify_ne {l : List CoapIP} {ptr i : Nat} {f : CoapIP → CoapIP} {e : CoapIP}
    (h : l[i]? = some e) (hne : i ≠ ptr) : (l.modify ptr f)[i]? = some e := by
  rw [List.getElem?_modify, h]
  exact congrArg some (if_neg (Ne.symm hne))

theorem getElem?_modify_self {l : List CoapIP} {ptr : Nat} {f : CoapIP → CoapIP} {e : CoapIP}
    (h : l[ptr]? = some e) : (l.modify ptr f)[ptr]? = some (f e) := by
  rw [List.getElem?_modify, h]
  exact congrArg some (if_pos rfl)

/-! ## Steps of the parent -/

theorem fork_inv {pid : Nat} (h : Inv s) (hlt : s.ptr < s.iplist.length)
    (hnew : s.clients pid = none)
    (hs : s' = { s with
      iplist := s.iplist.modify s.ptr fun e => { e with pid := some pid },
      clients := Function.update s.clients pid (some .openFifo), pc := .access pid }) :
    Inv s' := by
  subst hs
  -- an entry that has a pid has a client, and it is not the new one
  have hother : ∀ (i : Nat) (e : CoapIP) (p : Nat), s.iplist[i]? = some e → e.pid = some p → p ≠ pid := by
    intro i e p he hp hpp
    exact h.known i e p he hp (hpp ▸ hnew)
  refine ⟨?_, fun i e p he hp => ?_, fun i j e e' p he he' hp hp' => ?_, ?_,
    fun i hi => ?_, ?_⟩
  · refine (Function.forall_update_iff s.clients fun _ pc => pc ≠ some ClientPc.exited).mpr ?_
    exact ⟨by decide, fun p _ => h.noneExited p⟩
  · show Function.update s.clients pid (some .openFifo) p ≠ none
    by_cases hpp : p = pid
    · rw [hpp, Function.update_self]
      exact Option.some_ne_none _
    · rw [Function.update_of_ne hpp]
      rcases getElem?_modify_cases he with ⟨-, e₀, -, rfl⟩ | ⟨-, he⟩
      · exact absurd (Option.some_inj.mp hp).symm hpp
      · exact h.known i e p he hp
  -- of two entries with one pid none, one or both are the one that was changed
  · rcases getElem?_modify_cases he with ⟨rfl, e₀, -, rfl⟩ | ⟨-, he⟩ <;>
      rcases getElem?_modify_cases he' with ⟨rfl, e₁, -, rfl⟩ | ⟨-, he'⟩
    · rfl
    · exact absurd (Option.some_inj.mp hp).symm (hother j e' p he' hp')
    · exact absurd (Option.some_inj.mp hp').symm (hother i e p he hp)
    · exact h.own i j e e' p he he' hp hp'
  · show s.ptr ≤ (s.iplist.modify _ _).length
    rw [List.length_modify]
    exact h.ptr_le
  · obtain ⟨e, p, fd, he, hp, hfd, hfile, hread⟩ := h.done i hi
    exact ⟨e, p, fd, getElem?_modify_ne he (Nat.ne_of_lt hi), hp, hfd, hfile,
      hread.update (hother i e p he hp) rfl⟩
  · exact ⟨_, getElem?_modify_self (List.getElem?_eq_getElem hlt), rfl⟩

theorem opening_inv {pid fd : Nat} (h : Inv s) (hat : AtEntry s pid) (hread : Reads s pid)
    (hnew : s.files fd = none)
    (hs : s' = { s with
      iplist := s.iplist.modify s.ptr fun e => { e with fifoFd := some fd },
      files := Function.update s.files fd (some (getfifoName pid)),
      ptr := s.ptr + 1, pc := .fork }) : Inv s' := by
  subst hs
  obtain ⟨e₀, he₀, hp₀⟩ := hat
  have hlt : s.ptr < s.iplist.length := (List.getElem?_eq_some_iff.mp he₀).1
  -- the pids are as before
  have hpids : ∀ (i : Nat) (e : CoapIP) (p : Nat),
      (s.iplist.modify s.ptr fun e => { e with fifoFd := some fd })[i]? = some e →
      e.pid = some p → ∃ e', s.iplist[i]? = some e' ∧ e'.pid = some p := by
    intro i e p he hp
    rcases getElem?_modify_cases he with ⟨-, e', he', rfl⟩ | ⟨-, he⟩
    · exact ⟨e', he', hp⟩
    · exact ⟨e, he, hp⟩
  refine ⟨h.noneExited, fun i e p he hp => ?_, fun i j e e' p he he' hp hp' => ?_, ?_,
    fun i hi => ?_, trivial⟩
  · obtain ⟨e', he', hp'⟩ := hpids i e p he hp
    exact h.known i e' p he' hp'
  · obtain ⟨d, hd, hdp⟩ := hpids i e p he hp
    obtain ⟨d', hd', hdp'⟩ := hpids j e' p he' hp'
    exact h.own i j d d' p hd hd' hdp hdp'
  · show s.ptr + 1 ≤ (s.iplist.modify _ _).length
    rw [List.length_modify]
    exact hlt
  · show ∃ e p fd', (s.iplist.modify _ _)[i]? = some e ∧ _ ∧ _ ∧
      Function.update s.files fd _ fd' = _ ∧ _
    rcases Nat.lt_succ_iff_lt_or_eq.mp hi with hi | rfl
    · obtain ⟨e, p, fd', he, hp, hfd, hfile, hreads⟩ := h.done i hi
      -- the descriptors of the entries before are in use
      have hne : fd' ≠ fd := by
        rintro rfl
        rw [hnew] at hfile
        cases hfile
      exact ⟨e, p, fd', getElem?_modify_ne he (Nat.ne_of_lt hi), hp, hfd,
        by rw [Function.update_of_ne hne]; exact hfile, hreads⟩
    · exact ⟨_, pid, fd, getElem?_modify_self he₀, hp₀, rfl, Function.update_self .., hread⟩

/-- What a step of the parent does, with what holds before it. -/
theorem parentStep_inv {result : Nat} (h : Inv s) (hstep : parentStep s result = some s') :
    Inv s' := by
  have hplace := h.place
  rw [parentStep] at hstep
  rw [Place] at hplace
  cases hpc : s.pc with
  | fork =>
    rw [hpc] at hstep
    simp only at hstep
    split at hstep
    · next hcond => exact fork_inv h hcond.1 hcond.2.2 (Option.some_inj.mp hstep).symm
    · cases hstep
  | access pid =>
    rw [hpc] at hstep hplace
    simp only at hstep
    by_cases hfifo : s.fifos (getfifoName pid) = true
    · rw [if_pos hfifo] at hstep
      cases hstep
      exact ⟨h.noneExited, h.known, h.own, h.ptr_le, h.done, hplace, hfifo⟩
    · rw [if_neg hfifo] at hstep
      cases hstep
      exact ⟨h.noneExited, h.known, h.own, h.ptr_le, h.done, hplace⟩
  | mkfifo pid =>
    rw [hpc] at hstep hplace
    cases hstep
    exact ⟨h.noneExited, h.known, h.own, h.ptr_le, h.done, hplace, Function.update_self ..⟩
  | openFifo pid =>
    rw [hpc] at hstep hplace
    simp only [if_pos hplace.2] at hstep
    cases hstep
    exact ⟨h.noneExited, h.known, h.own, h.ptr_le, h.done, hplace⟩
  | opening pid =>
    rw [hpc] at hstep hplace
    simp only at hstep
    split at hstep
    · next hcond =>
      exact opening_inv h hplace.1 hcond.1 hcond.2 (Option.some_inj.mp hstep).symm
    · cases hstep
  | exited =>
    rw [hpc] at hplace
    exact hplace.elim

/-! ## Steps of the clients -/

/-- A client that goes on, and does not exit. -/
theorem client_inv {pid : Nat} {pc : ClientPc} (h : Inv s) (hpc : pc ≠ .exited)
    (hreads : Reads s pid → pc = .reading)
    (hs : s' = { s with clients := Function.update s.clients pid (some pc) }) : Inv s' := by
  subst hs
  refine ⟨?_, fun i e p he hp => ?_, h.own, h.ptr_le, fun i hi => ?_, h.place⟩
  · refine (Function.forall_update_iff s.clients fun _ pc => pc ≠ some ClientPc.exited).mpr ?_
    exact ⟨fun hcontra => hpc (Option.some_inj.mp hcontra), fun p _ => h.noneExited p⟩
  · have hknown : ∀ p, s.clients p ≠ none → Function.update s.clients pid (some pc) p ≠ none := by
      refine (Function.forall_update_iff s.clients fun p c => s.clients p ≠ none → c ≠ none).mpr ?_
      exact ⟨fun _ => Option.some_ne_none pc, fun p _ hp => hp⟩
    exact hknown p (h.known i e p he hp)
  · obtain ⟨e, p, fd, he, hp, hfd, hfile, hread⟩ := h.done i hi
    refine ⟨e, p, fd, he, hp, hfd, hfile, ?_⟩
    by_cases hpp : p = pid
    · right
      show Function.update s.clients pid (some pc) p = some .reading
      rw [hpp, Function.update_self, hreads (hpp ▸ hread)]
    · exact hread.update hpp rfl

theorem clientStep_inv {pid : Nat} (h : Inv s) (hintime : InTime s (.client pid))
    (hstep : clientStep s pid = some s') : Inv s' := by
  rw [clientStep] at hstep
  cases hc : s.clients pid with
  | none => rw [hc] at hstep; cases hstep
  | some pc =>
    rw [hc] at hstep
    cases pc with
    | openFifo =>
      simp only [hintime hc, if_true] at hstep
      -- a client before its `open` is no reader yet
      refine @client_inv _ _ _ .opening h (by decide) (fun hread => ?_)
        (Option.some_inj.mp hstep).symm
      rcases hread with hread | hread <;> rw [hc] at hread <;> cases hread
    | opening =>
      simp only at hstep
      split at hstep
      · exact client_inv h (by decide) (fun _ => rfl) (Option.some_inj.mp hstep).symm
      · cases hstep
    | reading => cases hstep
    | exited => cases hstep

/-- A client that opens its FIFO too early exits. -/
theorem clientStep_exits {pid : Nat} (hearly : ¬ InTime s (.client pid))
    (hstep : clientStep s pid = some s') : s'.clients pid = some .exited := by
  obtain ⟨hc, hmissing⟩ := Classical.not_imp.mp hearly
  rw [clientStep, hc] at hstep
  simp only [if_neg hmissing] at hstep
  cases hstep
  exact Function.update_self ..

/-! ## Runs -/

/-- What the invariant says about one state. -/
theorem Inv.handshake (h : Inv s) : Handshake s := by
  refine ⟨h.noneExited, fun pid _ => h.noneExited pid, fun _ hend => ?_⟩
  have hall : ∀ i, i < s.iplist.length → ∃ e pid fd, s.iplist[i]? = some e ∧ e.pid = some pid ∧
      e.fifoFd = some fd ∧ s.files fd = some (getfifoName pid) ∧ Reads s pid := by
    intro i hi
    exact h.done i (by omega)
  constructor
  · rw [List.nodup_iff_pairwise_ne, List.pairwise_iff_getElem]
    intro i j hi hj hlt heq
    rw [List.length_map] at hi hj
    obtain ⟨e, pid, -, he, hp, -⟩ := hall i hi
    have hei : s.iplist[i] = e := Option.some_inj.mp ((List.getElem?_eq_getElem hi).symm.trans he)
    rw [List.getElem_map, List.getElem_map, hei, hp] at heq
    have hij := h.own i j e s.iplist[j] pid he (List.getElem?_eq_getElem hj) hp heq.symm
    omega
  · intro e he
    obtain ⟨i, hi, rfl⟩ := List.mem_iff_getElem.mp he
    obtain ⟨e', pid, fd, he', hp, hfd, hfile, hread⟩ := hall i hi
    have hei : s.iplist[i] = e' := Option.some_inj.mp ((List.getElem?_eq_getElem hi).symm.trans he')
    rw [hei]
    exact ⟨pid, fd, hp, hfd, hfile, hread, fun pid' _ hname => getfifoName_inj hname⟩

/-- In every run, whatever the order of the steps and whatever FIFOs there are before: the
    handshake works in every state exactly when every client opens its FIFO after it was
    created. -/
theorem startup_handshake_iff (iplist : List CoapIP) (fifos : List Char → Bool) (as : List Act)
    (hrun : exec step (initState iplist fifos) as ≠ none) :
    AllStates step Handshake (initState iplist fifos) as
      ↔ AllSteps step InTime (initState iplist fifos) as := by
  refine @allStates_iff_allSteps _ _ _ Inv Handshake InTime (fun _ => True)
    (fun s h => h.handshake) ?_ ?_ _ _ (inv_init iplist fifos) (fun _ _ => trivial) hrun
  · intro s a s' h _ hstep hintime
    cases a with
    | parent result => exact parentStep_inv h hstep
    | client pid => exact clientStep_inv h hintime hstep
  · intro s a s' _ hstep hearly hgood
    cases a with
    | parent result => exact hearly trivial
    | client pid => exact hgood.noneExited pid (clientStep_exits hearly hstep)

/-- One client, which waits in its `open` before the parent does. -/
theorem startup_handshake_iff_one :
    AllStates step Handshake (initState [entry [] []] fun _ => false)
      [.parent 100, .parent 0, .parent 0, .client 100, .parent 0, .parent 5, .client 100] := by
  refine (startup_handshake_iff _ _ _ ?_).mpr ?_
  · exact Option.isSome_iff_ne_none.mp (by decide)
  · refine ⟨trivial, fun s₁ h₁ => ?_⟩
    cases h₁
    refine ⟨trivial, fun s₂ h₂ => ?_⟩
    cases h₂
    refine ⟨trivial, fun s₃ h₃ => ?_⟩
    cases h₃
    refine ⟨fun _ => rfl, fun s₄ h₄ => ?_⟩
    cases h₄
    refine ⟨trivial, fun s₅ h₅ => ?_⟩
    cases h₅
    refine ⟨trivial, fun s₆ h₆ => ?_⟩
    cases h₆
    exact ⟨fun hc => (by cases hc), fun _ _ => trivial⟩

/-! ## A client that is too early -/

/-- The client opens its FIFO directly after the fork: it exits, and the parent comes to wait for
    it. -/
theorem not_startup_handshake :
    ¬ ∀ (iplist : List CoapIP) (fifos : List Char → Bool) (as : List Act),
      exec step (initState iplist fifos) as ≠ none →
        AllStates step Handshake (initState iplist fifos) as := by
  intro hall
  have hstates := hall [entry [] []] (fun _ => false)
    [.parent 100, .client 100, .parent 0, .parent 0, .parent 0]
    (Option.isSome_iff_ne_none.mp (by decide))
  have hexited := (hstates.2 _ rfl).2 _ rfl
  exact hexited.head.noneExited 100 rfl

/-- A parent that waits for a client that exited waits forever. -/
theorem waits_forever {pid : Nat} (hwaits : s.pc = .opening pid)
    (hexited : s.clients pid = some .exited) (hr : Reachable step (fun _ _ => True) s s') :
    s'.pc = .opening pid ∧ s'.clients pid = some .exited := by
  refine @Reachable.invariant _ _ _ _ _ _
    (fun s => s.pc = .opening pid ∧ s.clients pid = some .exited) hr ⟨hwaits, hexited⟩ ?_
  rintro u a u' ⟨hpc, hc⟩ - hstep
  have hreads : ¬ Reads u pid := by
    intro hread
    rcases hread with hread | hread <;> rw [hc] at hread <;> cases hread
  cases a with
  | parent result =>
    -- `open` does not return
    change parentStep u result = some u' at hstep
    rw [parentStep, hpc] at hstep
    simp only [hreads, false_and, if_false] at hstep
    cases hstep
  | client other =>
    change clientStep u other = some u' at hstep
    have hother : other ≠ pid := by
      rintro rfl
      rw [clientStep, hc] at hstep
      cases hstep
    have hsame : ∃ pc, u' = { u with clients := Function.update u.clients other (some pc) } := by
      rw [clientStep] at hstep
      split at hstep
      · exact ⟨_, (Option.some_inj.mp hstep).symm⟩
      · split at hstep
        · exact ⟨_, (Option.some_inj.mp hstep).symm⟩
        · cases hstep
      · cases hstep
    obtain ⟨pc, rfl⟩ := hsame
    refine ⟨hpc, ?_⟩
    show Function.update u.clients other (some pc) pid = some .exited
    rw [Function.update_of_ne (Ne.symm hother)]
    exact hc

end Gateway.User.Startup
