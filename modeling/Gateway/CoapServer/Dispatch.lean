/-
  Gateway.CoapServer.Dispatch

  What `coap_handle_req` does with a parsed packet.

  A packet stands for a `Request`: its code, message id and token, the segments of
  its Uri-Path (the first run of options numbered 11) and its payload.  An entry of
  the endpoint table is taken when its method is the code and its segments are the
  path (`handledBy_cons`, `coapHandleReq_cons`), so the first such entry of a table is
  (`handledBy_table`).  `coapMakeResponse_eq` gives the response packet.
-/

import Mathlib.Data.List.TakeWhile
import Gateway.CoapServer.OptionNums

namespace Gateway.CoapServer.Dispatch

open Gateway.Lib.ByteWindow Gateway.Lib.BlockMem Gateway.Lib.CoapFormat
open Gateway.CoapServer.Microcoap Gateway.CoapServer.ParseSpec Gateway.CoapServer.BuildSpec
open Gateway.CoapServer.OptionNums

variable {O : Type}

/-! ## Requests -/

/-- What a client asks for. -/
structure Request where
  code : UInt8
  idHi : UInt8
  idLo : UInt8
  token : List UInt8
  path : List (List UInt8)
  payload : List UInt8
  token_le : token.length ≤ 8
  deriving DecidableEq, Repr

/-- The packet stands for the request. -/
structure Asks (m : Mem O) (pkt : CoapPacket O) (req : Request) : Prop where
  code : pkt.hdr.code = req.code
  idHi : pkt.hdr.idHi = req.idHi
  idLo : pkt.hdr.idLo = req.idLo
  tok : pkt.tok.read m = some req.token
  count : pkt.opts.length ≤ maxopt
  path : (numBlock coapOptionUriPath pkt.opts).map (fun o => o.buf.read m) = req.path.map some
  payload : pkt.payload.read m = some req.payload

/-- Reading a run of options gives some of the values. -/
theorem exists_values_of_sublist {m : Mem O} {os os' : List (CoapOption O)} {vs : List (List UInt8)}
    (h : os.map (fun o => o.buf.read m) = vs.map some) (hsub : os'.Sublist os) :
    ∃ vs' : List (List UInt8), os'.map (fun o => o.buf.read m) = vs'.map some := by
  induction os' with
  | nil => exact ⟨[], rfl⟩
  | cons o os' ih =>
    obtain ⟨vs', hvs'⟩ := ih (List.Sublist.trans (List.sublist_cons_self o os') hsub)
    have hmem : o.buf.read m ∈ vs.map some := by
      rw [← h]
      exact List.mem_map_of_mem (hsub.subset (List.mem_cons_self ..))
    obtain ⟨v, -, hv⟩ := List.mem_map.mp hmem
    exact ⟨v :: vs', by rw [List.map_cons, List.map_cons, hvs', hv]⟩

/-- Every packet that `coap_parse` reports stands for a request. -/
theorem exists_asks {m : Mem O} {buf : Ptr O} {n : Nat} {pkt : CoapPacket O}
    (hfit : buf.off + n ≤ (m buf.obj).length) (h : coapParse m buf n = .ok pkt) :
    ∃ req, Asks m pkt req := by
  obtain ⟨r, hr, rfl⟩ := (coapParse_eq_ok_iff hfit).mp h
  obtain ⟨-, -, -, hle, hwalk⟩ := decodeMsg_bytes hr
  obtain ⟨hcount, -, -⟩ := walk_sound hwalk
  have hreads := packetOf_reads hfit hr
  have hsub : (numBlock coapOptionUriPath (packetOf buf r).opts).Sublist (packetOf buf r).opts :=
    (List.takeWhile_sublist _).trans (List.dropWhile_sublist _)
  obtain ⟨path, hpath⟩ := exists_values_of_sublist hreads.opts hsub
  refine ⟨⟨r.code, r.idHi, r.idLo, r.token, path, payloadOf r.tail, hle⟩, rfl, rfl, rfl,
    hreads.tok, ?_, hpath, hreads.payload⟩
  rw [packetOf, layoutOpts_length]
  exact hcount

/-- The token of a parsed packet stands in the buffer, behind the header. -/
theorem tok_of_coapParse {m : Mem O} {buf : Ptr O} {n : Nat} {pkt : CoapPacket O}
    (hfit : buf.off + n ≤ (m buf.obj).length) (h : coapParse m buf n = .ok pkt) :
    pkt.tok.p = none ∨ pkt.tok.p = some (buf.add 4) := by
  obtain ⟨r, -, rfl⟩ := (coapParse_eq_ok_iff hfit).mp h
  simp only [packetOf]
  split
  · exact Or.inl rfl
  · exact Or.inr rfl

/-! ## The Uri-Path of a packet -/

/-- Behind the first option with the number stands its run. -/
theorem drop_findIdx {num : UInt8} {os : List (CoapOption O)} {i : Nat}
    (h : os.findIdx? (·.num == num) = some i) :
    numBlock num os ≠ [] ∧ ∃ rest, os.drop i = numBlock num os ++ rest := by
  induction os generalizing i with
  | nil => cases h
  | cons o os ih =>
    by_cases hnum : o.num = num
    · rw [List.findIdx?_cons, if_pos (by simpa using hnum)] at h
      obtain rfl : 0 = i := by simpa using h
      rw [numBlock, List.dropWhile_cons_of_neg (by simpa using hnum)]
      refine ⟨?_, (o :: os).dropWhile (·.num == num), ?_⟩
      · rw [List.takeWhile_cons_of_pos (by simpa using hnum)]
        exact List.cons_ne_nil _ _
      · rw [List.drop_zero, List.takeWhile_append_dropWhile]
    · rw [List.findIdx?_cons, if_neg (by simpa using hnum)] at h
      obtain ⟨j, hj, rfl⟩ := Option.map_eq_some_iff.mp h
      rw [numBlock_cons_of_ne os hnum, List.drop_succ_cons]
      exact ih hj

theorem numBlock_eq_nil {num : UInt8} {os : List (CoapOption O)}
    (h : os.findIdx? (·.num == num) = none) : numBlock num os = [] := by
  have hne := List.findIdx?_eq_none_iff.mp h
  have hdrop : os.dropWhile (·.num != num) = [] := by
    refine List.dropWhile_eq_nil_iff.mpr fun o ho => ?_
    rw [bne, hne o ho]
    rfl
  rw [numBlock, hdrop, List.takeWhile_nil]

/-- The segments of an entry are compared with the path, from index `i` on. -/
theorem segmentsMatch_eq {m : Mem O} {opts block rest : List (CoapOption O)} {first left i : Nat}
    {elems path : List (List UInt8)} (hblock : opts.drop first = block ++ rest)
    (hpath : block.map (fun o => o.buf.read m) = path.map some)
    (helems : elems.length = path.length) (hleft : left + i = path.length) :
    segmentsMatch m opts first elems left i = some (decide (elems.drop i = path.drop i)) := by
  have hlen : block.length = path.length := by simpa using congrArg List.length hpath
  induction left generalizing i with
  | zero =>
    rw [segmentsMatch, List.drop_eq_nil_of_le (by omega), List.drop_eq_nil_of_le (by omega)]
    rfl
  | succ left ih =>
    have hie : i < elems.length := by omega
    have hip : i < path.length := by omega
    have hib : i < block.length := by omega
    have hopt : opts[first + i]? = some block[i] := by
      rw [← List.getElem?_drop, hblock, List.getElem?_append_left hib, List.getElem?_eq_getElem hib]
    have hread : block[i].buf.read m = some path[i] := by
      have hi := congrArg (fun l : List (Option (List UInt8)) => l[i]?) hpath
      simpa [hib, hip] using hi
    have hvlen := CoapBuffer.read_length hread
    have helem : elems[i]? = some elems[i] := List.getElem?_eq_getElem hie
    simp only [segmentsMatch, hopt, helem, Option.bind_eq_bind, Option.bind_some]
    rw [List.drop_eq_getElem_cons hie, List.drop_eq_getElem_cons hip]
    by_cases heq : elems[i] = path[i]
    · rw [if_neg (by rw [heq, hvlen]; simp), hread]
      simp only [Option.bind_some]
      rw [if_neg (by simpa using heq), ih (by omega), heq]
      simp only [List.cons.injEq, true_and]
    · have hne : ¬ (elems[i] :: elems.drop (i + 1) = path[i] :: path.drop (i + 1)) := by
        intro hcons
        exact heq (List.cons.inj hcons).1
      rw [decide_eq_false hne]
      split
      · rfl
      · rw [hread]
        simp only [Option.bind_some]
        rw [if_pos heq]

/-! ## coap_handle_req -/

/-- The loop of `coap_handle_req` up to the call of a handler: the index of the entry whose
    handler is called, or of the last entry, which has none. -/
def handledBy (m : Mem O) (inpkt : CoapPacket O) : List (CoapEndpoint O) → Option Nat
  | [] => none
  | ep :: next =>
    match ep.handler with
    | none => some 0
    | some _ =>
      if ep.method ≠ inpkt.hdr.code then (handledBy m inpkt next).map (· + 1) else
      match coapFindOptions inpkt coapOptionUriPath with
      | (none, _) => (handledBy m inpkt next).map (· + 1)
      | (some opt, count) =>
        if count.toNat ≠ ep.path.count then (handledBy m inpkt next).map (· + 1) else do
        let found ← segmentsMatch m inpkt.opts opt ep.path.elems count.toNat 0
        if found then some 0 else (handledBy m inpkt next).map (· + 1)

/-- An entry with a handler is taken exactly when its method and its path are those of the
    request. -/
theorem handledBy_cons {m : Mem O} {inpkt : CoapPacket O} {ep : CoapEndpoint O}
    {next : List (CoapEndpoint O)} {req : Request} (h : Asks m inpkt req)
    (hh : ep.handler ≠ none) (hcount : ep.path.count = ep.path.elems.length)
    (hne : req.path = [] → ep.path.elems ≠ []) :
    handledBy m inpkt (ep :: next)
      = if ep.method = req.code ∧ ep.path.elems = req.path then some 0
        else (handledBy m inpkt next).map (· + 1) := by
  obtain ⟨handler, hh⟩ := Option.ne_none_iff_exists'.mp hh
  have hlen : (numBlock coapOptionUriPath inpkt.opts).length = req.path.length := by
    simpa using congrArg List.length h.path
  have hle : (numBlock coapOptionUriPath inpkt.opts).length ≤ inpkt.opts.length :=
    ((List.takeWhile_sublist _).trans (List.dropWhile_sublist _)).length_le
  have hmax : inpkt.opts.length ≤ 16 := h.count
  have hnum : (UInt8.ofNat (numBlock coapOptionUriPath inpkt.opts).length).toNat
      = req.path.length := by
    rw [UInt8.toNat_ofNat', hlen]
    omega
  rw [handledBy, hh]
  simp only
  by_cases hmethod : ep.method = req.code
  · rw [if_neg (by rw [h.code]; simpa using hmethod), coapFindOptions_eq]
    cases hfirst : inpkt.opts.findIdx? (·.num == coapOptionUriPath) with
    | none =>
      -- a request without a Uri-Path meets no entry
      have hpath : req.path = [] := by
        rw [numBlock_eq_nil hfirst] at hlen
        exact List.length_eq_zero_iff.mp hlen.symm
      simp only
      rw [if_neg (fun hcond => hne hpath (hcond.2.trans hpath))]
    | some i =>
      obtain ⟨-, rest, hblock⟩ := drop_findIdx hfirst
      simp only
      by_cases hsame : req.path.length = ep.path.elems.length
      · rw [if_neg (by rw [hnum, hcount]; simpa using hsame),
          segmentsMatch_eq hblock h.path hsame.symm (by rw [hnum]; rfl)]
        simp only [List.drop_zero, Option.bind_eq_bind, Option.bind_some, hmethod, true_and,
          decide_eq_true_eq]
      · rw [if_pos (by rw [hnum, hcount]; exact hsame),
          if_neg (fun hcond => hsame (congrArg List.length hcond.2.symm))]
  · rw [if_pos (by rw [h.code]; exact hmethod), if_neg (fun hcond => hmethod hcond.1)]

/-- The entries of a table before the last one have handlers and as many segments as they say;
    the last one has no handler. -/
structure IsTable (eps : List (CoapEndpoint O)) (last : CoapEndpoint O) : Prop where
  handlers : ∀ ep ∈ eps, ep.handler ≠ none
  counts : ∀ ep ∈ eps, ep.path.count = ep.path.elems.length
  last : last.handler = none

/-- The entry has this method and exactly this path. -/
def isResource (method : UInt8) (path : List (List UInt8)) (ep : CoapEndpoint O) : Bool :=
  decide (ep.method = method ∧ ep.path.elems = path)

/-- The first entry of the table with the method and the path of the request is taken, and the
    last entry when there is none. -/
theorem handledBy_table {m : Mem O} {inpkt : CoapPacket O} {eps : List (CoapEndpoint O)}
    {last : CoapEndpoint O} {req : Request} (h : Asks m inpkt req) (htable : IsTable eps last)
    (hne : req.path = [] → ∀ ep ∈ eps, ep.path.elems ≠ []) :
    handledBy m inpkt (eps ++ [last])
      = some ((eps.findIdx? (isResource req.code req.path)).getD eps.length) := by
  obtain ⟨handlers, counts, hlast⟩ := htable
  induction eps with
  | nil =>
    rw [List.nil_append, handledBy, hlast]
    rfl
  | cons ep next ih =>
    have hrest := ih (fun hpath ep' hep' => hne hpath ep' (List.mem_cons_of_mem _ hep'))
      (fun ep' hep' => handlers ep' (List.mem_cons_of_mem _ hep'))
      (fun ep' hep' => counts ep' (List.mem_cons_of_mem _ hep'))
    rw [List.cons_append, handledBy_cons h (handlers ep (List.mem_cons_self ..))
      (counts ep (List.mem_cons_self ..)) (fun hpath => hne hpath ep (List.mem_cons_self ..)),
      hrest, List.findIdx?_cons, isResource]
    by_cases hcond : ep.method = req.code ∧ ep.path.elems = req.path
    · rw [if_pos hcond, if_pos (decide_eq_true hcond)]
      rfl
    · rw [if_neg hcond, if_neg (by simpa using hcond)]
      cases next.findIdx? (isResource req.code req.path) <;> rfl

section Handle

variable [DecidableEq O]

/-- What `coap_handle_req` does at the entry it stops at. -/
def runEntry (m : Mem O) (scratch : CoapRwBuffer O) (inpkt outpkt : CoapPacket O)
    (ep : CoapEndpoint O) : Option (CoapError × Mem O × CoapPacket O) :=
  match ep.handler with
  | none => do
    let (_, m, outpkt) ← coapMakeResponse m scratch outpkt { p := none, len := 0 }
      inpkt.hdr.idHi inpkt.hdr.idLo (some inpkt.tok) .notFound .none
    some (.none, m, outpkt)
  | some handler => handler m scratch inpkt outpkt inpkt.hdr.idHi inpkt.hdr.idLo

/-- `coap_handle_req` calls the handler of one entry, and no other. -/
theorem coapHandleReq_eq (m : Mem O) (scratch : CoapRwBuffer O) (inpkt outpkt : CoapPacket O)
    (eps : List (CoapEndpoint O)) : coapHandleReq m scratch inpkt outpkt eps
      = (handledBy m inpkt eps).bind fun i =>
          (eps[i]?).bind (runEntry m scratch inpkt outpkt) := by
  induction eps with
  | nil => rfl
  | cons ep next ih =>
    have hnext : ((handledBy m inpkt next).map (· + 1)).bind (fun i =>
          ((ep :: next)[i]?).bind (runEntry m scratch inpkt outpkt))
        = coapHandleReq m scratch inpkt outpkt next := by
      rw [ih]
      cases handledBy m inpkt next <;> rfl
    rw [coapHandleReq, handledBy]
    cases hh : ep.handler with
    | none =>
      show _ = runEntry m scratch inpkt outpkt ep
      rw [runEntry, hh]
    | some handler =>
      have hrun : handler m scratch inpkt outpkt inpkt.hdr.idHi inpkt.hdr.idLo
          = runEntry m scratch inpkt outpkt ep := by
        rw [runEntry, hh]
      simp only
      by_cases hmethod : ep.method ≠ inpkt.hdr.code
      · rw [if_pos hmethod, if_pos hmethod]
        exact hnext.symm
      rw [if_neg hmethod, if_neg hmethod]
      obtain ⟨first, count⟩ := coapFindOptions inpkt coapOptionUriPath
      cases first with
      | none => exact hnext.symm
      | some opt =>
        simp only
        by_cases hcount : count.toNat ≠ ep.path.count
        · rw [if_pos hcount, if_pos hcount]
          exact hnext.symm
        rw [if_neg hcount, if_neg hcount]
        -- the segments decide
        cases segmentsMatch m inpkt.opts opt ep.path.elems count.toNat 0 with
        | none => rfl
        | some found =>
          cases found with
          | false => exact hnext.symm
          | true => exact hrun

/-- An entry with a handler is taken exactly when its method and its path are those of the
    request. -/
theorem coapHandleReq_cons {m : Mem O} {scratch : CoapRwBuffer O} {inpkt outpkt : CoapPacket O}
    {ep : CoapEndpoint O} {next : List (CoapEndpoint O)} {handler : CoapEndpointFunc O}
    {req : Request} (h : Asks m inpkt req) (hh : ep.handler = some handler)
    (hcount : ep.path.count = ep.path.elems.length) (hne : ep.path.elems ≠ []) :
    coapHandleReq m scratch inpkt outpkt (ep :: next)
      = if ep.method = req.code ∧ ep.path.elems = req.path then
          handler m scratch inpkt outpkt req.idHi req.idLo
        else coapHandleReq m scratch inpkt outpkt next := by
  have hsome : ep.handler ≠ none := by
    rw [hh]
    exact Option.some_ne_none _
  rw [coapHandleReq_eq, handledBy_cons h hsome hcount fun _ => hne, coapHandleReq_eq]
  by_cases hcond : ep.method = req.code ∧ ep.path.elems = req.path
  · rw [if_pos hcond, if_pos hcond, ← h.idHi, ← h.idLo]
    show runEntry m scratch inpkt outpkt ep = _
    rw [runEntry, hh]
  · rw [if_neg hcond, if_neg hcond]
    cases handledBy m inpkt next <;> rfl

/-- The value of the Content-Format option. -/
def formatBytes (ct : CoapContentType) : List UInt8 :=
  [((ct.toUInt16 &&& 0xFF00) >>> 8).toUInt8, (ct.toUInt16 &&& 0x00FF).toUInt8]

/-- The response packet. -/
def responsePkt (scratch : Ptr O) (content tok : CoapBuffer O) (idHi idLo : UInt8)
    (rspcode : CoapResponsecode) : CoapPacket O where
  hdr := { ver := 1, t := coapTypeAck, tkl := UInt8.ofNat tok.len, code := rspcode.code,
           idHi := idHi, idLo := idLo }
  tok := tok
  opts := [{ num := coapOptionContentFormat, buf := { p := some scratch, len := 2 } }]
  payload := content

/-- With two bytes of scratch, the response packet replaces whatever `pkt` held. -/
theorem coapMakeResponse_eq {m : Mem O} {scratch : CoapRwBuffer O} {pkt : CoapPacket O}
    {content tok : CoapBuffer O} {idHi idLo : UInt8} {rspcode : CoapResponsecode}
    {ct : CoapContentType} (hlen : 2 ≤ scratch.len)
    (hfit : scratch.p.off + 2 ≤ (m scratch.p.obj).length) :
    coapMakeResponse m scratch pkt content idHi idLo (some tok) rspcode ct
      = some (.none, written m scratch.p (formatBytes ct),
          responsePkt scratch.p content tok idHi idLo rspcode) := by
  have hstore : storeBytes m scratch.p (formatBytes ct)
      = some (written m scratch.p (formatBytes ct)) := storeBytes_eq hfit
  unfold formatBytes at hstore ⊢
  simp only [coapMakeResponse]
  rw [if_neg (by omega), hstore]
  rfl

/-- The end of the table: no entry was taken. -/
theorem coapHandleReq_last {m : Mem O} {scratch : CoapRwBuffer O} {inpkt outpkt : CoapPacket O}
    {ep : CoapEndpoint O} {next : List (CoapEndpoint O)} {req : Request} (h : Asks m inpkt req)
    (hh : ep.handler = none) (hlen : 2 ≤ scratch.len)
    (hfit : scratch.p.off + 2 ≤ (m scratch.p.obj).length) :
    coapHandleReq m scratch inpkt outpkt (ep :: next)
      = some (.none, written m scratch.p (formatBytes .none),
          responsePkt scratch.p { p := none, len := 0 } inpkt.tok req.idHi req.idLo .notFound) := by
  rw [coapHandleReq, hh]
  simp only
  rw [coapMakeResponse_eq hlen hfit, h.idHi, h.idLo]
  rfl

end Handle

end Gateway.CoapServer.Dispatch
