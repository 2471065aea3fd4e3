/-
  Gateway.CoapServer.HelloRuns

  The value of the resource `/hello` over whole runs of the server.

  `helloAfter` is the specification: of the datagrams received, the last one that
  `coap_parse` accepts as a PUT of `/hello` with a payload decides by its first
  byte.  It is stated with the packet that `coap_parse` reports for the datagram
  alone (`parsed`) and the block that `coap_findOptions` finds in it (`findPath`);
  the server parses the datagram in its own buffer, with other bytes behind it, and
  handles the same request there (`asks_parsed`).
-/

import Gateway.CoapServer.CoapServ

namespace Gateway.CoapServer.HelloRuns

open Gateway.Lib.ByteWindow Gateway.Lib.BlockMem Gateway.Lib.CString
open Gateway.CoapServer.Microcoap Gateway.CoapServer.ParseSpec Gateway.CoapServer.Grammar
open Gateway.CoapServer.OptionNums Gateway.CoapServer.Dispatch Gateway.CoapServer.Endpoints
open Gateway.CoapServer.CoapServ

variable {O : Type}

/-! ## The specification -/

/-- The packet that `coap_parse` reports; `recvfrom` drops what does not fit into `buf`. -/
def parsed (d : List UInt8) : Option (CoapPacket Unit) :=
  match coapParse (datagram (d.take bufSize)) ⟨(), 0⟩ (d.take bufSize).length with
  | .ok pkt => some pkt
  | _ => none

/-- The segments of the block that `coap_findOptions` reports for the Uri-Path. -/
def findPath (m : Mem O) (pkt : CoapPacket O) : Option (List (List UInt8)) :=
  match coapFindOptions pkt coapOptionUriPath with
  | (none, _) => some []
  | (some first, count) =>
    ((pkt.opts.drop first).take count.toNat).mapM fun o => o.buf.read m

/-- The payload of an accepted request for `/hello` with this method. -/
def helloPayload (method : UInt8) (d : List UInt8) : Option (List UInt8) := do
  let pkt ← parsed d
  let path ← findPath (datagram (d.take bufSize)) pkt
  if pkt.hdr.code = method ∧ path = [cstr ['h', 'e', 'l', 'l', 'o']] then
    pkt.payload.read (datagram (d.take bufSize))
  else none

/-- The first byte of a PUT of `/hello` with a payload. -/
def putByte (d : List UInt8) : Option UInt8 := (helloPayload coapMethodPut d).bind List.head?

/-- The character that a byte stands for. -/
def helloChar (b : UInt8) : UInt8 := if b = 0x31 then 0x31 else 0x30

/-- The value of `/hello` after the datagrams. -/
def helloAfter (ds : List (List UInt8)) : UInt8 :=
  match (ds.filterMap putByte).getLast? with
  | none => 0x31
  | some b => helloChar b

/-- The value after one more datagram. -/
def nextHello (hello : UInt8) (d : List UInt8) : UInt8 := ((putByte d).map helloChar).getD hello

theorem helloAfter_concat (ds : List (List UInt8)) (d : List UInt8) :
    helloAfter (ds ++ [d]) = nextHello (helloAfter ds) d := by
  rw [helloAfter, List.filterMap_append, nextHello]
  cases hd : putByte d with
  | none =>
    rw [List.filterMap_cons_none hd, List.filterMap_nil, List.append_nil]
    rfl
  | some b =>
    rw [List.filterMap_cons_some hd, List.filterMap_nil, List.getLast?_concat]
    rfl

-- a PUT of `/hello` with the payload `0!`
example : putByte ([0x40, 0x03, 0x12, 0x34, 0xB5] ++ cstr ['h', 'e', 'l', 'l', 'o'] ++
    [0xFF, 0x30, 0x21]) = some 0x30 := by decide

/-! ## The request of a datagram -/

/-- The block of an option list, in terms of what its entries show. -/
theorem numBlock_map {β : Type} (f : CoapOption O → β) (num : UInt8) (os : List (CoapOption O)) :
    (numBlock num os).map f =
      ((((os.map CoapOption.num).zip (os.map f)).dropWhile (·.1 != num)).takeWhile
        (·.1 == num)).map Prod.snd := by
  rw [List.zip_map', List.dropWhile_map, List.takeWhile_map, List.map_map]
  rfl

/-- Values that are read one by one. -/
theorem mapM_read {β γ : Type} {f : β → Option γ} {l : List β} {vs : List γ}
    (h : l.map f = vs.map some) : l.mapM f = some vs := by
  induction l generalizing vs with
  | nil =>
    obtain rfl : vs = [] := by simpa using h.symm
    rfl
  | cons b l ih =>
    cases vs with
    | nil => cases h
    | cons v vs =>
      obtain ⟨hb, hl⟩ := List.cons.inj h
      rw [List.mapM_cons, hb, ih hl]
      rfl

/-- `coap_findOptions` finds the path of the request. -/
theorem findPath_eq {m : Mem O} {pkt : CoapPacket O} {req : Request} (h : Asks m pkt req) :
    findPath m pkt = some req.path := by
  have hlen : (numBlock coapOptionUriPath pkt.opts).length = req.path.length := by
    simpa using congrArg List.length h.path
  rw [findPath, coapFindOptions_eq]
  cases hfirst : pkt.opts.findIdx? (·.num == coapOptionUriPath) with
  | none =>
    rw [numBlock_eq_nil hfirst] at hlen
    rw [List.length_eq_zero_iff.mp hlen.symm]
  | some first =>
    obtain ⟨-, rest, hblock⟩ := drop_findIdx hfirst
    have hle : (numBlock coapOptionUriPath pkt.opts).length ≤ pkt.opts.length :=
      ((List.takeWhile_sublist _).trans (List.dropWhile_sublist _)).length_le
    have hmax : pkt.opts.length ≤ 16 := h.count
    have hcount : (UInt8.ofNat (numBlock coapOptionUriPath pkt.opts).length).toNat
        = (numBlock coapOptionUriPath pkt.opts).length := by
      rw [UInt8.toNat_ofNat']
      omega
    simp only [hcount, hblock, List.take_left]
    exact mapM_read h.path

/-- The same bytes in two memories make the same request. -/
theorem Asks.transfer {O' : Type} {m : Mem O} {m' : Mem O'} {buf : Ptr O} {buf' : Ptr O'} {n : Nat}
    {r : Parsed} {req : Request} (hfit : buf.off + n ≤ (m buf.obj).length)
    (hfit' : buf'.off + n ≤ (m' buf'.obj).length)
    (hr : decodeMsg (slice (m buf.obj) buf.off n) = some r)
    (hr' : decodeMsg (slice (m' buf'.obj) buf'.off n) = some r)
    (h : Asks m (packetOf buf r) req) : Asks m' (packetOf buf' r) req := by
  have hreads := packetOf_reads hfit hr
  have hreads' := packetOf_reads hfit' hr'
  refine ⟨h.code, h.idHi, h.idLo, ?_, ?_, ?_, ?_⟩
  · rw [hreads'.tok, ← hreads.tok, h.tok]
  · have hcount := h.count
    simp only [packetOf, layoutOpts_length] at hcount ⊢
    exact hcount
  · -- numbers and values of the options are those of the datagram, wherever it stands
    rw [← h.path, numBlock_map, numBlock_map, hreads.opts, hreads'.opts]
    simp only [packetOf, layoutOpts_nums]
  · rw [hreads'.payload, ← hreads.payload, h.payload]

/-- What the server parses and handles is what the datagram alone asks for. -/
theorem asks_parsed {m : Mem Obj} {hello : UInt8} (h : ServReady m hello) (d : List UInt8) :
    (parsed d = none ∧ ∃ rc, coapParse (recvfrom m d) buf (d.take bufSize).length = .err rc) ∨
    ∃ pkt pkt' req, parsed d = some pkt ∧ Asks (datagram (d.take bufSize)) pkt req ∧
      coapParse (recvfrom m d) buf (d.take bufSize).length = .ok pkt' ∧
      Asks (recvfrom m d) pkt' req := by
  obtain ⟨hfit, hslice⟩ := recvfrom_fits h d
  have hfit' : 0 + (d.take bufSize).length ≤ (datagram (d.take bufSize) ()).length :=
    Nat.le_of_eq (Nat.zero_add _)
  have hslice' : slice (datagram (d.take bufSize) ()) 0 (d.take bufSize).length = d.take bufSize :=
    List.take_length
  cases hdec : decodeMsg (d.take bufSize) with
  | none =>
    left
    obtain ⟨rc, hrc⟩ := @coapParse_err _ _ ⟨(), 0⟩ _ hfit' (hslice'.symm ▸ hdec)
    exact ⟨by rw [parsed, hrc], coapParse_err hfit (hslice.symm ▸ hdec)⟩
  | some r =>
    right
    have hr := hslice.symm ▸ hdec
    have hr' := hslice'.symm ▸ hdec
    have hparse := coapParse_ok hfit hr
    have hparse' := @coapParse_ok _ _ ⟨(), 0⟩ _ _ hfit' hr'
    obtain ⟨req, hask⟩ := exists_asks hfit hparse
    -- the same parts, laid out at two places
    exact ⟨_, _, req, by rw [parsed, hparse'], @Asks.transfer _ _ _ _ _ ⟨(), 0⟩ _ _ _ hfit hfit' hr hr' hask,
      hparse, hask⟩

/-! ## One turn -/

/-- The server's state changes with a PUT of `/hello` only. -/
theorem serve_fst (hello : UInt8) (req : Request) :
    (serve hello req).1 =
      if req.code = coapMethodPut ∧ req.path = pathHello.elems then
        (req.payload.head?.map helloChar).getD hello
      else hello := by
  have hne : coapMethodGet ≠ coapMethodPut := by decide
  unfold serve
  by_cases hput : req.code = coapMethodPut ∧ req.path = pathHello.elems
  · rw [if_pos hput, if_neg fun h => hne (h.1.trans hput.1),
      if_neg fun h => hne (h.1.trans hput.1), if_pos ⟨hput.1.symm, hput.2.symm⟩]
    cases req.payload <;> rfl
  -- the other branches keep the state; the PUT branch is excluded
  · rw [if_neg hput]
    split
    · rfl
    split
    · rfl
    · rw [if_neg fun h => hput ⟨h.1.symm, h.2.symm⟩]

/-- A GET of `/hello` is answered with its value. -/
theorem serve_get {hello : UInt8} {req : Request} (hcode : req.code = coapMethodGet)
    (hpath : req.path = pathHello.elems) : (serve hello req).2.payload = [hello] := by
  have hcore : ¬ (coapMethodGet = req.code ∧ pathWellKnownCore.elems = req.path) := by
    rintro ⟨-, hcore⟩
    rw [hpath] at hcore
    exact absurd hcore (by decide)
  unfold serve
  rw [if_neg hcore, if_pos ⟨hcode.symm, hpath.symm⟩]

/-- The requests that the specification speaks about. -/
theorem helloPayload_eq {d : List UInt8} {pkt : CoapPacket Unit} {req : Request}
    (hparsed : parsed d = some pkt) (hask : Asks (datagram (d.take bufSize)) pkt req)
    (method : UInt8) :
    helloPayload method d =
      if req.code = method ∧ req.path = pathHello.elems then some req.payload else none := by
  rw [helloPayload, hparsed]
  simp only [Option.bind_eq_bind, Option.bind_some, findPath_eq hask, hask.code, hask.payload]
  rfl

/-- One turn takes the value to the next one; a GET of `/hello` is answered with the value. -/
theorem coapServTurn_hello {m : Mem Obj} {hello : UInt8} (h : ServReady m hello) (d : List UInt8)
    (rsppkt : CoapPacket Obj) :
    ∃ turn m', coapServTurn m d rsppkt = some (turn, m') ∧ ServReady m' (nextHello hello d) ∧
      (helloPayload coapMethodGet d ≠ none → ∃ reply pkt, turn = .sent reply ∧
        coapParse (datagram reply) ⟨(), 0⟩ reply.length = .ok pkt ∧
        pkt.payload.read (datagram reply) = some [hello]) := by
  rcases asks_parsed h d with ⟨hnone, rc, hrc⟩ | ⟨pkt, pkt', req, hparsed, hask, hacc, hask'⟩
  · -- a rejected datagram
    have hno : ∀ method, helloPayload method d = none := by
      intro method
      rw [helloPayload, hnone]
      rfl
    refine ⟨.badPacket rc, recvfrom m d, by rw [coapServTurn, hrc], ?_, fun hget => ?_⟩
    · rw [nextHello, putByte, hno]
      exact h.recvfrom d
    · exact absurd (hno _) hget
  · obtain ⟨m', hturn, hready⟩ := @coapServTurn_ok _ _ _ _ _ rsppkt h hacc hask'
    refine ⟨_, m', hturn, ?_, fun hget => ?_⟩
    -- `serve` and the specification make the same of the request
    · have hnext : nextHello hello d = (serve hello req).1 := by
        rw [nextHello, putByte, helloPayload_eq hparsed hask, serve_fst]
        split <;> rfl
      rw [hnext]
      exact hready
    -- a GET of `/hello`: the reply is parsed again
    · rw [helloPayload_eq hparsed hask] at hget
      have hcond : req.code = coapMethodGet ∧ req.path = pathHello.elems := by
        by_contra hcond
        rw [if_neg hcond] at hget
        exact hget rfl
      obtain ⟨pkt'', hparse, hdec⟩ := exists_reply_packet req (serve hello req).2
      refine ⟨_, pkt'', rfl, hparse, ?_⟩
      rw [hdec.reads.payload]
      exact congrArg some (serve_get hcond.1 hcond.2)

/-! ## Runs -/

/-- A run takes the value through the datagrams one by one. -/
theorem coapServRun_hello {m : Mem Obj} {before : List (List UInt8)}
    (h : ServReady m (helloAfter before)) (ds : List (List UInt8 × CoapPacket Obj)) :
    ∃ turns m', coapServRun m ds = some (turns, m') ∧ turns.length = ds.length ∧
      ServReady m' (helloAfter (before ++ ds.map Prod.fst)) ∧
      ∀ i d turn, (ds.map Prod.fst)[i]? = some d → turns[i]? = some turn →
        helloPayload coapMethodGet d ≠ none → ∃ reply pkt, turn = .sent reply ∧
          coapParse (datagram reply) ⟨(), 0⟩ reply.length = .ok pkt ∧
          pkt.payload.read (datagram reply)
            = some [helloAfter (before ++ (ds.map Prod.fst).take i)] := by
  induction ds generalizing m before with
  | nil =>
    refine ⟨[], m, rfl, rfl, ?_, fun i d turn hd => ?_⟩
    · rw [List.map_nil, List.append_nil]
      exact h
    · rw [List.map_nil, List.getElem?_nil] at hd
      cases hd
  | cons d ds ih =>
    obtain ⟨d, rsppkt⟩ := d
    obtain ⟨turn, m₁, hturn, hready, hget⟩ := coapServTurn_hello h d rsppkt
    rw [← helloAfter_concat] at hready
    obtain ⟨turns, m', hrun, hlen, hready', hgets⟩ := ih hready
    refine ⟨turn :: turns, m', ?_, by rw [List.length_cons, hlen, List.length_cons], ?_, ?_⟩
    · rw [coapServRun, hturn]
      simp only [Option.bind_eq_bind, Option.bind_some, hrun]
    · rw [List.append_assoc] at hready'
      exact hready'
    · intro i d' turn' hd' hturn' hhello
      cases i with
      | zero =>
        cases hd'
        cases hturn'
        rw [List.take_zero, List.append_nil]
        exact hget hhello
      | succ i =>
        have hlater := hgets i d' turn' hd' hturn' hhello
        rw [List.append_assoc] at hlater
        exact hlater

/-- After every sequence of datagrams `retHello` is what the last PUT of `/hello` with a payload
    made it; every GET of it so far was answered with the value at that time, and a further
    datagram that is no such PUT leaves it as it is. -/
theorem retHello_runs (ds : List (List UInt8 × CoapPacket Obj)) :
    ∃ m₀ turns m, endpointSetup initMem = some m₀ ∧ coapServRun m₀ ds = some (turns, m) ∧
      turns.length = ds.length ∧ m .retHello = [helloAfter (ds.map Prod.fst)] ∧
      (∀ i d turn, (ds.map Prod.fst)[i]? = some d → turns[i]? = some turn →
        helloPayload coapMethodGet d ≠ none → ∃ reply pkt, turn = .sent reply ∧
          coapParse (datagram reply) ⟨(), 0⟩ reply.length = .ok pkt ∧
          pkt.payload.read (datagram reply) = some [helloAfter ((ds.map Prod.fst).take i)]) ∧
      (∀ d rsppkt turn m', coapServTurn m d rsppkt = some (turn, m') → putByte d = none →
        m' .retHello = m .retHello) := by
  obtain ⟨m₀, hsetup, hready₀⟩ := endpointSetup_ready
  have hstart : ServReady m₀ (helloAfter []) := hready₀
  obtain ⟨turns, m, hrun, hlen, hready, hgets⟩ := coapServRun_hello hstart ds
  refine ⟨m₀, turns, m, hsetup, hrun, hlen, hready.retHello, hgets, ?_⟩
  intro d rsppkt turn m' hturn hput
  -- one more turn, which is not a PUT
  obtain ⟨turn₁, m₁, hturn₁, hready₁, -⟩ := coapServTurn_hello hready d rsppkt
  rw [hturn₁] at hturn
  cases hturn
  rw [hready₁.retHello, hready.retHello, nextHello, hput]
  rfl

end Gateway.CoapServer.HelloRuns
