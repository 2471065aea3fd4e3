/-
  Gateway.User.StartupEnd

  The start-up comes to its end: when every client opens its FIFO in time, the parent and
  the clients cannot wait for one another forever, and they are done after at most seven
  steps for each entry of the table.

  The two `open`s of a FIFO wait for each other.  The parent in its `open` has forked the
  client, and the client in its `open` has a parent that is or was in its own; so as long
  as the start-up is not finished somebody can take a step (`enabled`), and every step
  brings it closer to the end (`work`).
-/

import Mathlib.Algebra.GroupWithZero.Nat
import Mathlib.Algebra.Order.BigOperators.Group.List
import Mathlib.Algebra.Order.Group.Nat
import Mathlib.Data.Fintype.EquivFin
import Gateway.Lib.Progress
import Gateway.User.Startup

namespace Gateway.User.StartupEnd

open Gateway.Lib.Transition Gateway.Lib.Progress
open Gateway.Iptable.ParsTxt (CoapIP entry)
open Gateway.User.Startup

variable {s s' : State}

/-! ## What a step does -/

theorem parentStep_cases {result : Nat} (h : parentStep s result = some s') :
    (s.pc = .fork ∧ s.ptr < s.iplist.length ∧ s.clients result = none ∧
      s' = { s with
        iplist := s.iplist.modify s.ptr fun e => { e with pid := some result },
        clients := Function.update s.clients result (some .openFifo), pc := .access result }) ∨
    (∃ pid, s.pc = .access pid ∧
      s' = { s with pc := if s.fifos (getfifoName pid) then .openFifo pid else .mkfifo pid }) ∨
    (∃ pid, s.pc = .mkfifo pid ∧
      s' = { s with fifos := Function.update s.fifos (getfifoName pid) true, pc := .openFifo pid }) ∨
    (∃ pid, s.pc = .openFifo pid ∧
      s' = { s with pc := if s.fifos (getfifoName pid) then .opening pid else .exited }) ∨
    (∃ pid, s.pc = .opening pid ∧ s.files result = none ∧
      s' = { s with
        iplist := s.iplist.modify s.ptr fun e => { e with fifoFd := some result },
        files := Function.update s.files result (some (getfifoName pid)),
        ptr := s.ptr + 1, pc := .fork }) := by
  rw [parentStep] at h
  cases hpc : s.pc with
  | fork =>
    rw [hpc] at h
    simp only at h
    split at h
    · next hcond =>
      exact Or.inl ⟨rfl, hcond.1, hcond.2.2, (Option.some_inj.mp h).symm⟩
    · cases h
  | access pid =>
    rw [hpc] at h
    exact Or.inr (Or.inl ⟨pid, rfl, (Option.some_inj.mp h).symm⟩)
  | mkfifo pid =>
    rw [hpc] at h
    exact Or.inr (Or.inr (Or.inl ⟨pid, rfl, (Option.some_inj.mp h).symm⟩))
  | openFifo pid =>
    rw [hpc] at h
    exact Or.inr (Or.inr (Or.inr (Or.inl ⟨pid, rfl, (Option.some_inj.mp h).symm⟩)))
  | opening pid =>
    rw [hpc] at h
    simp only at h
    split at h
    · next hcond =>
      exact Or.inr (Or.inr (Or.inr (Or.inr ⟨pid, rfl, hcond.2, (Option.some_inj.mp h).symm⟩)))
    · cases h
  | exited =>
    rw [hpc] at h
    cases h

theorem clientStep_cases {pid : Nat} (h : clientStep s pid = some s') :
    (∃ pc, s.clients pid = some .openFifo ∧ (pc = .opening ∨ pc = .exited) ∧
      s' = { s with clients := Function.update s.clients pid (some pc) }) ∨
    (s.clients pid = some .opening ∧
      s' = { s with clients := Function.update s.clients pid (some .reading) }) := by
  rw [clientStep] at h
  cases hc : s.clients pid with
  | none =>
    rw [hc] at h
    cases h
  | some pc =>
    rw [hc] at h
    cases pc with
    | openFifo =>
      refine Or.inl ⟨_, rfl, ?_, (Option.some_inj.mp h).symm⟩
      split
      · exact Or.inl rfl
      · exact Or.inr rfl
    | opening =>
      simp only at h
      split at h
      · exact Or.inr ⟨rfl, (Option.some_inj.mp h).symm⟩
      · cases h
    | reading => cases h
    | exited => cases h

/-! ## Every client is one of an entry -/

/-- The client of an entry that is done, or of the entry the parent is at. -/
def Listed (s : State) (pid : Nat) : Prop :=
  (∃ i e, i < s.ptr ∧ s.iplist[i]? = some e ∧ e.pid = some pid) ∨ s.pc ≠ .fork ∧ AtEntry s pid

/-- What is needed of the clients and descriptors besides the invariant of the handshake. -/
structure Bounded (s : State) : Prop where
  listed : ∀ pid, s.clients pid ≠ none → Listed s pid
  descriptors : ∃ bound, ∀ fd, bound ≤ fd → s.files fd = none

theorem bounded_init (iplist : List CoapIP) (fifos : List Char → Bool) :
    Bounded (initState iplist fifos) where
  listed := fun _ h => absurd rfl h
  descriptors := ⟨0, fun _ _ => rfl⟩

/-- A step of the parent between `fork` and `open`. -/
theorem Listed.frame {pid : Nat} (h : Listed s pid) (hlist : s'.iplist = s.iplist)
    (hptr : s'.ptr = s.ptr) (hpc : s'.pc ≠ .fork) : Listed s' pid := by
  unfold Listed AtEntry at h ⊢
  rw [hlist, hptr]
  rcases h with hdone | ⟨-, hat⟩
  · exact Or.inl hdone
  · exact Or.inr ⟨hpc, hat⟩

theorem parentStep_bounded {result : Nat} (h : Bounded s) (hs : parentStep s result = some s') :
    Bounded s' := by
  obtain ⟨hlisted, bound, hbound⟩ := h
  rcases parentStep_cases hs with ⟨hpc, hlt, -, rfl⟩ | ⟨pid, hpc, rfl⟩ | ⟨pid, hpc, rfl⟩ |
    ⟨pid, hpc, rfl⟩ | ⟨pid, hpc, -, rfl⟩
  · refine ⟨fun p hp => ?_, bound, hbound⟩
    by_cases hpp : p = result
    · -- the new client
      subst hpp
      exact Or.inr ⟨fun heq => (by cases heq), _,
        getElem?_modify_self (List.getElem?_eq_getElem hlt), rfl⟩
    · have hp' : s.clients p ≠ none := by
        have hold : Function.update s.clients result (some .openFifo) p ≠ none := hp
        rwa [Function.update_of_ne hpp] at hold
      rcases hlisted p hp' with ⟨i, e, hi, he, hep⟩ | ⟨hne, -⟩
      · exact Or.inl ⟨i, e, hi, getElem?_modify_ne he (Nat.ne_of_lt hi), hep⟩
      · exact absurd hpc hne
  · refine ⟨fun p hp => (hlisted p hp).frame rfl rfl ?_, bound, hbound⟩
    show (if s.fifos (getfifoName pid) then ParentPc.openFifo pid else .mkfifo pid) ≠ .fork
    split <;> exact fun heq => (by cases heq)
  · exact ⟨fun p hp => (hlisted p hp).frame rfl rfl fun heq => (by cases heq), bound, hbound⟩
  · refine ⟨fun p hp => (hlisted p hp).frame rfl rfl ?_, bound, hbound⟩
    show (if s.fifos (getfifoName pid) then ParentPc.opening pid else .exited) ≠ .fork
    split <;> exact fun heq => (by cases heq)
  · refine ⟨fun p hp => Or.inl ?_, max bound (result + 1), fun fd hfd => ?_⟩
    · -- the entry is done, and its pid is as before
      have hptr : s.ptr < s.ptr + 1 := Nat.lt_succ_self _
      rcases hlisted p hp with ⟨i, e, hi, he, hep⟩ | ⟨-, e, he, hep⟩
      · exact ⟨i, e, Nat.lt_succ_of_lt hi, getElem?_modify_ne he (Nat.ne_of_lt hi), hep⟩
      · exact ⟨s.ptr, _, hptr, getElem?_modify_self he, hep⟩
    · show Function.update s.files result _ fd = none
      rw [Function.update_of_ne (by omega)]
      exact hbound fd (by omega)

theorem clientStep_bounded {pid : Nat} (h : Bounded s) (hs : clientStep s pid = some s') :
    Bounded s' := by
  have hclient : ∃ pc, s.clients pid ≠ none ∧
      s' = { s with clients := Function.update s.clients pid (some pc) } := by
    rcases clientStep_cases hs with ⟨pc, hc, -, rfl⟩ | ⟨hc, rfl⟩
    · exact ⟨pc, hc ▸ Option.some_ne_none _, rfl⟩
    · exact ⟨.reading, hc ▸ Option.some_ne_none _, rfl⟩
  obtain ⟨pc, hc, rfl⟩ := hclient
  refine ⟨fun p hp => h.listed p ?_, h.descriptors⟩
  by_cases hpp : p = pid
  · rw [hpp]
    exact hc
  · have hnew : Function.update s.clients pid (some pc) p ≠ none := hp
    rwa [Function.update_of_ne hpp] at hnew

/-! ## Work -/

/-- The steps a client has to take until it reads. -/
def clientWork : Option ClientPc → Nat
  | some .openFifo => 2
  | some .opening => 1
  | _ => 0

/-- The steps of the client of an entry. -/
def entryWork (clients : Nat → Option ClientPc) (e : CoapIP) : Nat :=
  e.pid.elim 0 fun pid => clientWork (clients pid)

/-- The steps of the parent, and those of the clients that are still to be forked. -/
def parentWork (s : State) : Nat :=
  match s.pc with
  | .fork => 7 * (s.iplist.length - s.ptr)
  | .access _ => 7 * (s.iplist.length - (s.ptr + 1)) + 4
  | .mkfifo _ => 7 * (s.iplist.length - (s.ptr + 1)) + 3
  | .openFifo _ => 7 * (s.iplist.length - (s.ptr + 1)) + 2
  | .opening _ => 7 * (s.iplist.length - (s.ptr + 1)) + 1
  | .exited => 0

/-- The steps until the start-up is finished. -/
def work (s : State) : Nat := parentWork s + (s.iplist.map (entryWork s.clients)).sum

/-- One entry changes, and weighs at most `c` more. -/
theorem sum_modify_le {l : List CoapIP} {f : CoapIP → CoapIP} {w w' : CoapIP → Nat} {c : Nat}
    (hrest : ∀ e ∈ l, w' e ≤ w e) (hnew : ∀ e ∈ l, w' (f e) ≤ w e + c) (i : Nat) :
    ((l.modify i f).map w').sum ≤ (l.map w).sum + c := by
  induction l generalizing i with
  | nil =>
    rw [List.modify_nil]
    exact Nat.zero_le _
  | cons e l ih =>
    have hl : ∀ e ∈ l, w' e ≤ w e := fun e he => hrest e (List.mem_cons_of_mem _ he)
    have hf : ∀ e ∈ l, w' (f e) ≤ w e + c := fun e he => hnew e (List.mem_cons_of_mem _ he)
    have hsame : (l.map w').sum ≤ (l.map w).sum := List.sum_le_sum hl
    have hhead := hrest e (List.mem_cons_self ..)
    have hfirst := hnew e (List.mem_cons_self ..)
    cases i with
    | zero =>
      rw [List.modify_zero_cons, List.map_cons, List.map_cons, List.sum_cons, List.sum_cons]
      omega
    | succ i =>
      have htail := ih hl hf i
      rw [List.modify_succ_cons, List.map_cons, List.map_cons, List.sum_cons, List.sum_cons]
      omega

theorem parentStep_work {result : Nat} (h : Inv s) (hs : parentStep s result = some s') :
    work s' < work s := by
  have hplace := h.place
  rw [Place] at hplace
  rcases parentStep_cases hs with ⟨hpc, hlt, hnew, rfl⟩ | ⟨pid, hpc, rfl⟩ | ⟨pid, hpc, rfl⟩ |
    ⟨pid, hpc, rfl⟩ | ⟨pid, hpc, -, rfl⟩ <;> rw [hpc] at hplace
  · -- the other entries have other clients, and the new one has two steps to go
    have hsum := @sum_modify_le s.iplist (fun e => { e with pid := some result })
      (entryWork s.clients) (entryWork (Function.update s.clients result (some .openFifo))) 2
      (fun e he => by
        obtain ⟨i, hi⟩ := List.mem_iff_getElem?.mp he
        rw [entryWork, entryWork]
        cases hp : e.pid with
        | none => exact Nat.le_refl _
        | some p =>
          have hne : p ≠ result := by
            rintro rfl
            exact h.known i e p hi hp hnew
          rw [Option.elim_some, Option.elim_some, Function.update_of_ne hne])
      (fun e _ => by
        rw [entryWork, Option.elim_some, Function.update_self]
        exact Nat.le_add_left 2 _) s.ptr
    simp only [work, parentWork, hpc, List.length_modify]
    omega
  · -- there may be a FIFO of this name, and then it is not created
    by_cases hfifo : s.fifos (getfifoName pid) = true
    · simp only [work, parentWork, hpc, if_pos hfifo]
      omega
    · simp only [work, parentWork, hpc, if_neg hfifo]
      omega
  · simp only [work, parentWork, hpc]
    omega
  · simp only [work, parentWork, hpc, if_pos hplace.2]
    omega
  · have hsum := @sum_modify_le s.iplist (fun e => { e with fifoFd := some result })
      (entryWork s.clients) (entryWork s.clients) 0 (fun e _ => Nat.le_refl _)
      (fun e _ => Nat.le_refl _) s.ptr
    simp only [work, parentWork, hpc, List.length_modify]
    omega

/-- The entry of a client. -/
theorem Listed.mem {pid : Nat} (h : Listed s pid) : ∃ e ∈ s.iplist, e.pid = some pid := by
  rcases h with ⟨i, e, -, he, hp⟩ | ⟨-, e, he, hp⟩
  · exact ⟨e, List.mem_of_getElem? he, hp⟩
  · exact ⟨e, List.mem_of_getElem? he, hp⟩

theorem clientStep_work {pid : Nat} (h : Bounded s) (hs : clientStep s pid = some s') :
    work s' < work s := by
  have hclient : ∃ pc, s.clients pid ≠ none ∧ clientWork (some pc) < clientWork (s.clients pid) ∧
      s' = { s with clients := Function.update s.clients pid (some pc) } := by
    rcases clientStep_cases hs with ⟨pc, hc, hpc, rfl⟩ | ⟨hc, rfl⟩
    · refine ⟨pc, hc ▸ Option.some_ne_none _, ?_, rfl⟩
      rw [hc]
      rcases hpc with rfl | rfl
      · exact Nat.lt_succ_self 1
      · exact Nat.zero_lt_two
    · refine ⟨.reading, hc ▸ Option.some_ne_none _, ?_, rfl⟩
      rw [hc]
      exact Nat.zero_lt_one
  obtain ⟨pc, hc, hlower, rfl⟩ := hclient
  obtain ⟨e, he, hp⟩ := (h.listed pid hc).mem
  have hsum : (s.iplist.map (entryWork (Function.update s.clients pid (some pc)))).sum
      < (s.iplist.map (entryWork s.clients)).sum := by
    apply List.sum_lt_sum
    · intro d _
      rw [entryWork, entryWork]
      cases hd : d.pid with
      | none => exact Nat.le_refl _
      | some p =>
        rw [Option.elim_some, Option.elim_some]
        by_cases hpp : p = pid
        · rw [hpp, Function.update_self]
          exact Nat.le_of_lt hlower
        · rw [Function.update_of_ne hpp]
    · refine ⟨e, he, ?_⟩
      rw [entryWork, entryWork, hp, Option.elim_some, Option.elim_some, Function.update_self]
      exact hlower
  exact Nat.add_lt_add_left hsum (parentWork s)

/-! ## Nobody waits forever -/

/-- Every entry has a pid of its own, its client reads the FIFO, and the parent holds it open. -/
structure Finished (s : State) : Prop where
  pc : s.pc = .fork
  ptr : s.ptr = s.iplist.length
  pids : (s.iplist.map CoapIP.pid).Nodup
  connected : ∀ e ∈ s.iplist, ∃ pid fd, e.pid = some pid ∧ e.fifoFd = some fd ∧
    Connected s pid fd ∧ s.clients pid = some .reading

/-- The start-up is at its end: no entry is left, and every client reads. -/
def AtEnd (s : State) : Prop :=
  s.pc = .fork ∧ s.ptr = s.iplist.length ∧ ∀ pid, Reads s pid → s.clients pid = some .reading

theorem finished_of_atEnd (h : Inv s) (hend : AtEnd s) : Finished s := by
  obtain ⟨hpc, hptr, hreading⟩ := hend
  obtain ⟨hpids, hconn⟩ := h.handshake.finished hpc hptr
  refine ⟨hpc, hptr, hpids, fun e he => ?_⟩
  obtain ⟨pid, fd, hp, hfd, hc⟩ := hconn e he
  exact ⟨pid, fd, hp, hfd, hc, hreading pid hc.reader⟩

/-- A client that waits in `open` finds a writer when its entry is done. -/
theorem client_enabled {pid : Nat} (h : Inv s) (hc : s.clients pid = some .opening)
    (hdone : ∃ i e, i < s.ptr ∧ s.iplist[i]? = some e ∧ e.pid = some pid) :
    ∃ s', clientStep s pid = some s' := by
  obtain ⟨i, e, hi, he, hp⟩ := hdone
  obtain ⟨e', pid', fd, he', hp', hfd, hfile, -⟩ := h.done i hi
  obtain rfl : e = e' := Option.some_inj.mp (he.symm.trans he')
  obtain rfl : pid = pid' := Option.some_inj.mp (hp.symm.trans hp')
  have hwrites : Writes s pid :=
    Or.inr ⟨fd, List.mem_filterMap.mpr ⟨e, List.mem_of_getElem? he, hfd⟩, hfile⟩
  rw [clientStep, hc]
  simp only [hwrites, if_true]
  exact ⟨_, rfl⟩

/-- A pid that no process has. -/
theorem exists_newPid (h : Bounded s) : ∃ pid, 0 < pid ∧ s.clients pid = none := by
  obtain ⟨pid, hpid⟩ := Infinite.exists_notMem_finset
    (insert 0 (s.iplist.filterMap CoapIP.pid).toFinset)
  rw [Finset.mem_insert, not_or, List.mem_toFinset] at hpid
  refine ⟨pid, Nat.pos_of_ne_zero hpid.1, ?_⟩
  by_contra hc
  obtain ⟨e, he, hp⟩ := (h.listed pid hc).mem
  exact hpid.2 (List.mem_filterMap.mpr ⟨e, he, hp⟩)

/-- As long as the start-up is not at its end somebody can go on, and is in time. -/
theorem enabled (h : Inv s) (hfin : Bounded s) (hbusy : ¬ AtEnd s) :
    ∃ a s', InTime s a ∧ step s a = some s' := by
  have hplace := h.place
  rw [Place] at hplace
  cases hpc : s.pc with
  | fork =>
    by_cases hlt : s.ptr < s.iplist.length
    · obtain ⟨pid, hpos, hnew⟩ := exists_newPid hfin
      refine ⟨.parent pid, ?_⟩
      rw [step, parentStep, hpc]
      simp only [hlt, hpos, hnew, and_self, if_true]
      exact ⟨_, trivial, rfl⟩
    · -- every entry is done; a client that does not read yet waits in `open`
      have hptr : s.ptr = s.iplist.length := Nat.le_antisymm h.ptr_le (Nat.le_of_not_lt hlt)
      obtain ⟨pid, hread, hnot⟩ : ∃ pid, Reads s pid ∧ s.clients pid ≠ some .reading := by
        by_contra hnone
        refine hbusy ⟨hpc, hptr, fun pid hread => ?_⟩
        by_contra hnot
        exact hnone ⟨pid, hread, hnot⟩
      have hopening : s.clients pid = some .opening := hread.resolve_right hnot
      rcases hfin.listed pid (hopening ▸ Option.some_ne_none _) with hdone | ⟨hne, -⟩
      · obtain ⟨s', hs'⟩ := client_enabled h hopening hdone
        refine ⟨.client pid, s', fun hopen => ?_, hs'⟩
        rw [hopening] at hopen
        cases hopen
      · exact absurd hpc hne
  | access pid =>
    refine ⟨.parent 0, ?_⟩
    rw [step, parentStep, hpc]
    exact ⟨_, trivial, rfl⟩
  | mkfifo pid =>
    refine ⟨.parent 0, ?_⟩
    rw [step, parentStep, hpc]
    exact ⟨_, trivial, rfl⟩
  | openFifo pid =>
    refine ⟨.parent 0, ?_⟩
    rw [step, parentStep, hpc]
    exact ⟨_, trivial, rfl⟩
  | opening pid =>
    rw [hpc] at hplace
    obtain ⟨⟨e, he, hp⟩, hfifo⟩ := hplace
    by_cases hread : Reads s pid
    · obtain ⟨bound, hbound⟩ := hfin.descriptors
      refine ⟨.parent bound, ?_⟩
      rw [step, parentStep, hpc]
      simp only [hread, hbound bound (Nat.le_refl _), and_self, if_true]
      exact ⟨_, trivial, rfl⟩
    · -- the client is before its `open`, and its FIFO is there
      have hopen : s.clients pid = some .openFifo := by
        cases hc : s.clients pid with
        | none => exact absurd hc (h.known s.ptr e pid he hp)
        | some pc =>
          cases pc with
          | openFifo => rfl
          | opening => exact absurd (Or.inl hc) hread
          | reading => exact absurd (Or.inr hc) hread
          | exited => exact absurd hc (h.noneExited pid)
      refine ⟨.client pid, ?_⟩
      rw [step, clientStep, hopen]
      exact ⟨_, fun _ => hfifo, rfl⟩
  | exited =>
    rw [hpc] at hplace
    exact hplace.elim

/-! ## Runs -/

/-- The start-up in time. -/
theorem terminating : Terminating step (fun s => Inv s ∧ Bounded s) InTime AtEnd work where
  keeps := by
    rintro s a s' ⟨hinv, hfin⟩ ha hs
    cases a with
    | parent result => exact ⟨parentStep_inv hinv hs, parentStep_bounded hfin hs⟩
    | client pid => exact ⟨clientStep_inv hinv ha hs, clientStep_bounded hfin hs⟩
  lowers := by
    rintro s a s' ⟨hinv, hfin⟩ ha hs
    cases a with
    | parent result => exact parentStep_work hinv hs
    | client pid => exact clientStep_work hfin hs
  enabled := fun s h hbusy => enabled h.1 h.2 hbusy

theorem work_init (iplist : List CoapIP) (fifos : List Char → Bool) :
    work (initState iplist fifos) = 7 * iplist.length := by
  have hnone : (((initState iplist fifos).iplist).map (entryWork (initState iplist fifos).clients)).sum
      = 0 := by
    apply List.sum_eq_zero
    intro w hw
    obtain ⟨e, he, rfl⟩ := List.mem_map.mp hw
    obtain ⟨e', -, rfl⟩ := List.mem_map.mp he
    rfl
  rw [work, hnone]
  show 7 * ((iplist.map _).length - 0) + 0 = _
  rw [List.length_map]
  rfl

/-- Whatever the order in which the parent and the clients take their steps, as long as every
    client opens its FIFO in time: the start-up takes at most seven steps for each entry; when
    nobody can go on it is finished, with all clients reading; and from every state on the way it
    can be finished. -/
theorem startup_completes (iplist : List CoapIP) (fifos : List Char → Bool) (as : List Act)
    (hintime : AllSteps step InTime (initState iplist fifos) as)
    (hrun : exec step (initState iplist fifos) as = some s) :
    as.length ≤ 7 * iplist.length ∧
      ((∀ a, InTime s a → step s a = none) → Finished s) ∧
      ∃ more s', AllSteps step InTime s more ∧ exec step s more = some s' ∧ Finished s' := by
  have hinit : Inv (initState iplist fifos) ∧ Bounded (initState iplist fifos) :=
    ⟨inv_init iplist fifos, bounded_init iplist fifos⟩
  obtain ⟨hinv, -⟩ := terminating.run hinit hintime hrun
  refine ⟨?_, fun hstuck => ?_, ?_⟩
  · rw [← work_init iplist fifos]
    exact terminating.length_le hinit hintime hrun
  · exact finished_of_atEnd hinv.1 (terminating.final_of_stuck hinit hintime hrun hstuck)
  · obtain ⟨more, s', hmore, hrest, hend⟩ := terminating.completes hinv
    obtain ⟨hinv', -⟩ := terminating.run hinv hmore hrest
    exact ⟨more, s', hmore, hrest, finished_of_atEnd hinv'.1 hend⟩

/-- Two entries, and the parent is in its first `open` already. -/
theorem startup_completes_two :
    ∃ as s, exec step (initState [entry [] [], entry [] []] fun _ => false) as = some s ∧
      as.take 4 = [.parent 100, .parent 0, .parent 0, .parent 0] ∧ Finished s := by
  obtain ⟨s, hrun⟩ : ∃ s, exec step (initState [entry [] [], entry [] []] fun _ => false)
      [.parent 100, .parent 0, .parent 0, .parent 0] = some s := ⟨_, rfl⟩
  obtain ⟨-, -, more, s', -, hrest, hend⟩ := startup_completes _ _ _
    (allSteps_of_forall (by simp [InTime])) hrun
  refine ⟨[.parent 100, .parent 0, .parent 0, .parent 0] ++ more, s', ?_, rfl, hend⟩
  rw [exec_append, hrun]
  exact hrest

end Gateway.User.StartupEnd
