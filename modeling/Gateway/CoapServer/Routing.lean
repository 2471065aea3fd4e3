/-
  Gateway.CoapServer.Routing

  Which handlers of the endpoint table `coap_handle_req` calls.

  `handleReqCalls` is the loop of `coap_handle_req` with its calls written down
  (`handleReqCalls_eq`).  An entry is for a packet when it has the packet's code as
  its method and the values of all Uri-Path options, in order, as its segments
  (`IsFor`).  On a packet with sorted options the first such entry of a table is
  called, and no other one (`coapHandleReq_dispatch`).
-/

import Gateway.CoapServer.Dispatch

namespace Gateway.CoapServer.Routing

open Gateway.Lib.ByteWindow Gateway.Lib.BlockMem Gateway.Lib.CoapFormat Gateway.Lib.ByteBits
open Gateway.CoapServer.Microcoap Gateway.CoapServer.ParseSpec Gateway.CoapServer.BuildSpec
open Gateway.CoapServer.OptionNums Gateway.CoapServer.Dispatch

variable {O : Type}

/-! ## The Uri-Path of a sorted packet -/

/-- `MAX_SEGMENTS`: the size of the array `elems`. -/
def maxSegments : Nat := 2

/-- The Uri-Path options of a packet, wherever they stand. -/
def uriPath (pkt : CoapPacket O) : List (CoapOption O) :=
  pkt.opts.filter (·.num == coapOptionUriPath)

/-- Behind a number, the options of that number come first in a sorted list. -/
theorem takeWhile_eq_filter {num : UInt8} {os : List (CoapOption O)}
    (hsorted : os.Pairwise (·.num ≤ ·.num)) (hle : ∀ o ∈ os, num ≤ o.num) :
    os.takeWhile (·.num == num) = os.filter (·.num == num) := by
  induction os with
  | nil => rfl
  | cons o os ih =>
    obtain ⟨ho, hos⟩ := List.pairwise_cons.mp hsorted
    by_cases hnum : o.num = num
    · rw [List.takeWhile_cons_of_pos (by simpa using hnum),
        List.filter_cons_of_pos (by simpa using hnum),
        ih hos (fun o' ho' => hle o' (List.mem_cons_of_mem _ ho'))]
    · -- a larger number ends the run, and there is no option of the number behind it
      have hlt : num < o.num :=
        UInt8.lt_of_le_of_ne (hle o (List.mem_cons_self ..)) (fun heq => hnum heq.symm)
      have hnone : ∀ o' ∈ os, ¬ (o'.num == num) = true := by
        intro o' ho' heq
        have hge := ho o' ho'
        rw [beq_iff_eq.mp heq] at hge
        exact UInt8.not_le.mpr hlt hge
      rw [List.takeWhile_cons_of_neg (by simpa using hnum),
        List.filter_cons_of_neg (by simpa using hnum), List.filter_eq_nil_iff.mpr hnone]

/-- In a sorted packet the first run of a number holds all of its options. -/
theorem numBlock_eq_filter {num : UInt8} {os : List (CoapOption O)}
    (hsorted : os.Pairwise (·.num ≤ ·.num)) : numBlock num os = os.filter (·.num == num) := by
  induction os with
  | nil => rfl
  | cons o os ih =>
    obtain ⟨ho, hos⟩ := List.pairwise_cons.mp hsorted
    by_cases hnum : o.num = num
    · have hle : ∀ o' ∈ o :: os, num ≤ o'.num := by
        intro o' ho'
        rcases List.mem_cons.mp ho' with rfl | ho'
        · exact UInt8.le_of_eq hnum.symm
        · exact hnum ▸ ho o' ho'
      rw [numBlock, List.dropWhile_cons_of_neg (by simpa using hnum)]
      exact takeWhile_eq_filter hsorted hle
    · rw [numBlock_cons_of_ne os hnum, List.filter_cons_of_neg (by simpa using hnum), ih hos]

/-! ## The calls of coap_handle_req -/

/-- The token length of a parsed packet is the length of its token. -/
theorem tkl_of_coapParse {m : Mem O} {buf : Ptr O} {n : Nat} {pkt : CoapPacket O}
    (hfit : buf.off + n ≤ (m buf.obj).length) (h : coapParse m buf n = .ok pkt) :
    UInt8.ofNat pkt.tok.len = pkt.hdr.tkl := by
  obtain ⟨r, hr, rfl⟩ := (coapParse_eq_ok_iff hfit).mp h
  obtain ⟨-, -, htok, -⟩ := decodeMsg_bytes hr
  rw [packetOf_tok_len, packetOf]
  simp only
  rw [← UInt8.toNat_inj, toNat_lowNibble, UInt8.toNat_ofNat']
  omega

/-- The entry has the code of the packet as its method, and as its segments the values of the
    Uri-Path options. -/
def IsFor (m : Mem O) (pkt : CoapPacket O) (ep : CoapEndpoint O) : Prop :=
  ep.method = pkt.hdr.code ∧
    (uriPath pkt).map (fun o => o.buf.read m) = ep.path.elems.map some

instance (m : Mem O) (pkt : CoapPacket O) (ep : CoapEndpoint O) : Decidable (IsFor m pkt ep) :=
  inferInstanceAs (Decidable (_ ∧ _))

/-- On a packet that stands for a request, the entries for it are those with the method and the
    path of the request. -/
theorem isFor_iff {m : Mem O} {pkt : CoapPacket O} {req : Request} (h : Asks m pkt req)
    (hsorted : pkt.opts.Pairwise (·.num ≤ ·.num)) (ep : CoapEndpoint O) :
    IsFor m pkt ep ↔ isResource req.code req.path ep = true := by
  have hpath := h.path
  rw [numBlock_eq_filter hsorted] at hpath
  rw [IsFor, uriPath, hpath, h.code, isResource, decide_eq_true_eq]
  refine and_congr_right fun _ => ?_
  refine ⟨fun heq => ?_, fun heq => by rw [heq]⟩
  exact (List.map_injective_iff.mpr (Option.some_injective _) heq).symm

/-- The indices of the handlers that are called when the loop stops at entry `j` of `eps`. -/
def callsAt (eps : List (CoapEndpoint O)) (i : Nat) : Option Nat → List Nat
  | none => []
  | some j => if (eps[j]?.bind CoapEndpoint.handler).isSome then [i + j] else []

theorem callsAt_cons (ep : CoapEndpoint O) (next : List (CoapEndpoint O)) (i : Nat)
    (stop : Option Nat) : callsAt (ep :: next) i (stop.map (· + 1)) = callsAt next (i + 1) stop := by
  cases stop with
  | none => rfl
  | some j =>
    rw [Option.map_some, callsAt, callsAt, List.getElem?_cons_succ, Nat.add_assoc, Nat.add_comm 1]

section Calls

variable [DecidableEq O]

/-- The loop of `coap_handle_req` from the entry of index `i` on, with the indices of the entries
    whose handlers it calls. -/
def handleReqCalls (m : Mem O) (scratch : CoapRwBuffer O) (inpkt outpkt : CoapPacket O) :
    List (CoapEndpoint O) → Nat → List Nat × Option (CoapError × Mem O × CoapPacket O)
  | [], _ => ([], none)
  | ep :: next, i =>
    match ep.handler with
    | none =>
      ([], do
        let (_, m, outpkt) ← coapMakeResponse m scratch outpkt { p := none, len := 0 }
          inpkt.hdr.idHi inpkt.hdr.idLo (some inpkt.tok) .notFound .none
        some (.none, m, outpkt))
    | some handler =>
      if ep.method ≠ inpkt.hdr.code then handleReqCalls m scratch inpkt outpkt next (i + 1) else
      match coapFindOptions inpkt coapOptionUriPath with
      | (none, _) => handleReqCalls m scratch inpkt outpkt next (i + 1)
      | (some opt, count) =>
        if count.toNat ≠ ep.path.count then handleReqCalls m scratch inpkt outpkt next (i + 1) else
        match segmentsMatch m inpkt.opts opt ep.path.elems count.toNat 0 with
        | none => ([], none)
        | some true => ([i], handler m scratch inpkt outpkt inpkt.hdr.idHi inpkt.hdr.idLo)
        | some false => handleReqCalls m scratch inpkt outpkt next (i + 1)

/-- Writing down the calls changes nothing: the result is that of `coap_handle_req`, and the
    handler of the entry at which the loop stops is the only one that is called. -/
theorem handleReqCalls_eq (m : Mem O) (scratch : CoapRwBuffer O) (inpkt outpkt : CoapPacket O)
    (eps : List (CoapEndpoint O)) (i : Nat) : handleReqCalls m scratch inpkt outpkt eps i
      = (callsAt eps i (handledBy m inpkt eps), coapHandleReq m scratch inpkt outpkt eps) := by
  induction eps generalizing i with
  | nil => rfl
  | cons ep next ih =>
    have hnext : handleReqCalls m scratch inpkt outpkt next (i + 1)
        = (callsAt (ep :: next) i ((handledBy m inpkt next).map (· + 1)),
            coapHandleReq m scratch inpkt outpkt next) := by
      rw [ih, callsAt_cons]
    rw [handleReqCalls, handledBy, coapHandleReq]
    cases hh : ep.handler with
    | none =>
      simp only [callsAt, List.getElem?_cons_zero, Option.bind_some, hh]
      rfl
    | some handler =>
      simp only
      by_cases hmethod : ep.method ≠ inpkt.hdr.code
      · rw [if_pos hmethod, if_pos hmethod, if_pos hmethod]
        exact hnext
      rw [if_neg hmethod, if_neg hmethod, if_neg hmethod]
      obtain ⟨first, count⟩ := coapFindOptions inpkt coapOptionUriPath
      cases first with
      | none => exact hnext
      | some opt =>
        simp only
        by_cases hcount : count.toNat ≠ ep.path.count
        · rw [if_pos hcount, if_pos hcount, if_pos hcount]
          exact hnext
        rw [if_neg hcount, if_neg hcount, if_neg hcount]
        cases segmentsMatch m inpkt.opts opt ep.path.elems count.toNat 0 with
        | none => rfl
        | some found =>
          cases found with
          | false => exact hnext
          | true =>
            show _ = (callsAt (ep :: next) i (some 0), _)
            rw [callsAt, List.getElem?_cons_zero, Option.bind_some, hh]
            rfl

end Calls

/-! ## Dispatch -/

/-- The response says 4.04 and carries the message id and the token of the request. -/
structure IsNotFound (inpkt rsp : CoapPacket O) : Prop where
  code : rsp.hdr.code = makeRspcode 4 4
  idHi : rsp.hdr.idHi = inpkt.hdr.idHi
  idLo : rsp.hdr.idLo = inpkt.hdr.idLo
  tkl : rsp.hdr.tkl = inpkt.hdr.tkl
  tok : rsp.tok = inpkt.tok

/-- The first entry of the table that is for the packet. -/
structure IsFirstFor (m : Mem O) (pkt : CoapPacket O) (eps : List (CoapEndpoint O)) (i : Nat)
    (ep : CoapEndpoint O) : Prop where
  entry : eps[i]? = some ep
  isFor : IsFor m pkt ep
  first : ∀ j < i, ∀ ep', eps[j]? = some ep' → ¬ IsFor m pkt ep'

/-- The loop stops at the first entry that is for the packet. -/
theorem handledBy_of_isFirstFor {m : Mem O} {pkt : CoapPacket O} {req : Request}
    {eps : List (CoapEndpoint O)} {last : CoapEndpoint O} {i : Nat} {ep : CoapEndpoint O}
    (h : Asks m pkt req) (hsorted : pkt.opts.Pairwise (·.num ≤ ·.num)) (htable : IsTable eps last)
    (hne : ∀ ep ∈ eps, ep.path.elems ≠ []) (hfirst : IsFirstFor m pkt eps i ep) :
    handledBy m pkt (eps ++ [last]) = some i := by
  obtain ⟨hi, hep⟩ := List.getElem?_eq_some_iff.mp hfirst.entry
  have hidx : eps.findIdx? (isResource req.code req.path) = some i := by
    refine List.findIdx?_eq_some_iff_getElem.mpr ⟨hi, ?_, ?_⟩
    · rw [hep]
      exact (isFor_iff h hsorted ep).mp hfirst.isFor
    · intro j hj hres
      have hjlt : j < eps.length := Nat.lt_trans hj hi
      exact hfirst.first j hj eps[j] (List.getElem?_eq_getElem hjlt)
        ((isFor_iff h hsorted eps[j]).mpr hres)
  rw [handledBy_table h htable (fun _ => hne), hidx]
  rfl

/-- The loop runs to the end of the table when no entry is for the packet. -/
theorem handledBy_of_none {m : Mem O} {pkt : CoapPacket O} {req : Request}
    {eps : List (CoapEndpoint O)} {last : CoapEndpoint O} (h : Asks m pkt req)
    (hsorted : pkt.opts.Pairwise (·.num ≤ ·.num)) (htable : IsTable eps last)
    (hne : ∀ ep ∈ eps, ep.path.elems ≠ []) (hnone : ∀ ep ∈ eps, ¬ IsFor m pkt ep) :
    handledBy m pkt (eps ++ [last]) = some eps.length := by
  have hidx : eps.findIdx? (isResource req.code req.path) = none := by
    refine List.findIdx?_eq_none_iff.mpr fun ep hep => ?_
    rw [Bool.eq_false_iff]
    intro hres
    exact hnone ep hep ((isFor_iff h hsorted ep).mpr hres)
  rw [handledBy_table h htable (fun _ => hne), hidx]
  rfl

section Dispatch

variable [DecidableEq O]

/-- The handler of the entry at which the loop stops is called, and its result returned. -/
theorem handleReqCalls_found {m : Mem O} {scratch : CoapRwBuffer O} {inpkt outpkt : CoapPacket O}
    {eps : List (CoapEndpoint O)} {i : Nat} {ep : CoapEndpoint O} {handler : CoapEndpointFunc O}
    (hstop : handledBy m inpkt eps = some i) (hentry : eps[i]? = some ep)
    (hhandler : ep.handler = some handler) : handleReqCalls m scratch inpkt outpkt eps 0
      = ([i], handler m scratch inpkt outpkt inpkt.hdr.idHi inpkt.hdr.idLo) := by
  rw [handleReqCalls_eq, coapHandleReq_eq, hstop, callsAt, hentry, Option.bind_some, hhandler,
    Nat.zero_add, Option.bind_some, hentry, Option.bind_some, runEntry, hhandler]
  rfl

/-- At the end entry no handler is called, and the response is 4.04. -/
theorem handleReqCalls_end {m : Mem O} {scratch : CoapRwBuffer O} {inpkt outpkt : CoapPacket O}
    {eps : List (CoapEndpoint O)} {i : Nat} {last : CoapEndpoint O}
    (hstop : handledBy m inpkt eps = some i) (hentry : eps[i]? = some last)
    (hlast : last.handler = none) (hlen : 2 ≤ scratch.len)
    (hscratch : scratch.p.off + 2 ≤ (m scratch.p.obj).length) :
    handleReqCalls m scratch inpkt outpkt eps 0
      = ([], some (.none, written m scratch.p (formatBytes .none),
          responsePkt scratch.p { p := none, len := 0 } inpkt.tok inpkt.hdr.idHi inpkt.hdr.idLo
            .notFound)) := by
  rw [handleReqCalls_eq, coapHandleReq_eq, hstop, callsAt, hentry, Option.bind_some, hlast,
    Option.bind_some, hentry, Option.bind_some, runEntry, hlast]
  simp only
  rw [coapMakeResponse_eq hlen hscratch]
  rfl

/-- Dispatch is exact: for every table, every parsed packet with sorted options and every scratch
    buffer of two bytes, `coap_handle_req` calls the handler of the first entry that is for the
    packet, and no other one; when there is no such entry, it calls none and responds with 4.04. -/
theorem coapHandleReq_dispatch {m : Mem O} {buf : Ptr O} {n : Nat} {inpkt outpkt : CoapPacket O}
    {scratch : CoapRwBuffer O} {eps : List (CoapEndpoint O)} {last : CoapEndpoint O}
    (hfit : buf.off + n ≤ (m buf.obj).length) (hparse : coapParse m buf n = .ok inpkt)
    (hsorted : inpkt.opts.Pairwise (·.num ≤ ·.num)) (htable : IsTable eps last)
    (hsegs : ∀ ep ∈ eps, 1 ≤ ep.path.count ∧ ep.path.count ≤ maxSegments)
    (hlen : 2 ≤ scratch.len) (hscratch : scratch.p.off + 2 ≤ (m scratch.p.obj).length) :
    let (calls, result) := handleReqCalls m scratch inpkt outpkt (eps ++ [last]) 0
    coapHandleReq m scratch inpkt outpkt (eps ++ [last]) = result ∧
    (∀ i ep, IsFirstFor m inpkt eps i ep → calls = [i] ∧ ∃ handler, ep.handler = some handler ∧
      result = handler m scratch inpkt outpkt inpkt.hdr.idHi inpkt.hdr.idLo) ∧
    ((∀ ep ∈ eps, ¬ IsFor m inpkt ep) → calls = [] ∧ ∃ m' rsp, result = some (.none, m', rsp) ∧
      IsNotFound inpkt rsp ∧
      (Apart inpkt.tok scratch.p.obj → rsp.tok.read m' = inpkt.tok.read m)) := by
  obtain ⟨req, hasks⟩ := exists_asks hfit hparse
  have hne : ∀ ep ∈ eps, ep.path.elems ≠ [] := by
    intro ep hep hnil
    have hcount := htable.counts ep hep
    rw [hnil, List.length_nil] at hcount
    exact absurd (hsegs ep hep).1 (by omega)
  have hresult : coapHandleReq m scratch inpkt outpkt (eps ++ [last])
      = (handleReqCalls m scratch inpkt outpkt (eps ++ [last]) 0).2 := by
    rw [handleReqCalls_eq]
  refine ⟨hresult, ?_, ?_⟩
  · intro i ep hfirst
    obtain ⟨hi, -⟩ := List.getElem?_eq_some_iff.mp hfirst.entry
    have hentry : (eps ++ [last])[i]? = some ep := by
      rw [List.getElem?_append_left hi, hfirst.entry]
    obtain ⟨handler, hhandler⟩ := Option.ne_none_iff_exists'.mp
      (htable.handlers ep (List.mem_of_getElem? hfirst.entry))
    rw [handleReqCalls_found (handledBy_of_isFirstFor hasks hsorted htable hne hfirst) hentry hhandler]
    exact ⟨rfl, handler, hhandler, rfl⟩
  · intro hnone
    have hentry : (eps ++ [last])[eps.length]? = some last := by
      rw [List.getElem?_append_right (Nat.le_refl _), Nat.sub_self]
      rfl
    rw [handleReqCalls_end (handledBy_of_none hasks hsorted htable hne hnone) hentry htable.last hlen
      hscratch]
    refine ⟨rfl, _, _, rfl, ⟨rfl, rfl, rfl, tkl_of_coapParse hfit hparse, rfl⟩, fun hapart => ?_⟩
    rw [hasks.tok]
    exact read_written hapart hasks.tok

/-! ## A table of three resources -/

/-- A handler that responds with 2.05 and no content. -/
def contentHandler : CoapEndpointFunc Bool := fun m scratch inpkt outpkt idHi idLo =>
  coapMakeResponse m scratch outpkt { p := none, len := 0 } idHi idLo (some inpkt.tok) .content
    .textPlain

/-- An entry that answers GET requests for a path. -/
def getEntry (elems : List (List UInt8)) : CoapEndpoint Bool where
  method := coapMethodGet
  handler := some contentHandler
  path := { count := elems.length, elems := elems }
  coreAttr := none

/-- The last entry. -/
def lastEntry : CoapEndpoint Bool where
  method := 0
  handler := none
  path := { count := 0, elems := [] }
  coreAttr := none

/-- The resources `/a/b`, `/a` and, once more, `/a`. -/
def smallTable : List (CoapEndpoint Bool) :=
  [getEntry [[0x61], [0x62]], getEntry [[0x61]], getEntry [[0x61]]]

/-- A datagram in the object `true`, and two bytes of scratch in the object `false`. -/
def twoObjects (bs : List UInt8) : Mem Bool := fun o => if o then bs else [0, 0]

/-- `GET` with a token and one segment, which is the last byte of the datagram. -/
def getBytes (segment : UInt8) : List UInt8 := [0x41, 0x01, 0x12, 0x34, 0x07, 0xB1, segment]

/-- The packet of such a datagram. -/
def getPkt : CoapPacket Bool where
  hdr := { ver := 1, t := 0, tkl := 1, code := 1, idHi := 0x12, idLo := 0x34 }
  tok := { p := some ⟨true, 4⟩, len := 1 }
  opts := [{ num := 11, buf := { p := some ⟨true, 6⟩, len := 1 } }]
  payload := { p := none, len := 0 }

/-- `GET /a` is handled by the second entry, `GET /b` by none. -/
theorem coapHandleReq_dispatch_small :
    (handleReqCalls (twoObjects (getBytes 0x61)) ⟨⟨false, 0⟩, 2⟩ getPkt getPkt
      (smallTable ++ [lastEntry]) 0).1 = [1] ∧
    ∃ m' rsp, handleReqCalls (twoObjects (getBytes 0x62)) ⟨⟨false, 0⟩, 2⟩ getPkt getPkt
        (smallTable ++ [lastEntry]) 0 = ([], some (.none, m', rsp)) ∧ IsNotFound getPkt rsp := by
  have htable : IsTable smallTable lastEntry := ⟨by decide, by decide, rfl⟩
  refine ⟨?_, ?_⟩
  · have hrun := @coapHandleReq_dispatch _ _ (twoObjects (getBytes 0x61)) ⟨true, 0⟩ 7 getPkt getPkt
      ⟨⟨false, 0⟩, 2⟩ _ _ (by decide) rfl (by decide) htable (by decide) (by decide) (by decide)
    exact (hrun.2.1 1 (getEntry [[0x61]]) ⟨rfl, by decide, by decide⟩).1
  · have hrun := @coapHandleReq_dispatch _ _ (twoObjects (getBytes 0x62)) ⟨true, 0⟩ 7 getPkt getPkt
      ⟨⟨false, 0⟩, 2⟩ _ _ (by decide) rfl (by decide) htable (by decide) (by decide) (by decide)
    obtain ⟨hcalls, m', rsp, hresult, hrsp, -⟩ := hrun.2.2 (by decide)
    exact ⟨m', rsp, Prod.ext hcalls hresult, hrsp⟩

end Dispatch

end Gateway.CoapServer.Routing
