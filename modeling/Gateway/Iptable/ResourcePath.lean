/-
  Gateway.Iptable.ResourcePath

  The way of a resource path through the gateway: `ParsTxt` reads it from a line of
  the table, `CoapClient` builds a request for it, and `coap_parse` and
  `coap_handle_req` look for the endpoint.

  `ParsTxt` keeps the text behind the first slash as one string, and the client
  sends that string as one Uri-Path option.  `coap_handle_req` compares one option
  with one segment, so a request reaches the endpoint of its path exactly when the
  path has one segment.
-/

import Gateway.CoapClient.Request
import Gateway.CoapServer.Dispatch
import Gateway.CoapServer.Endpoints
import Gateway.Iptable.ParsTxt

namespace Gateway.Iptable.ResourcePath

open Gateway.Lib.ByteWindow Gateway.Lib.BlockMem Gateway.Lib.CString Gateway.Lib.NodeChain
open Gateway.Lib.CoapFormat
open Gateway.Comm.LinkedList Gateway.Comm.ListRuns Gateway.Iptable.ParsTxt
open Gateway.CoapClient.Picocoap (ccGet conUriPath)
open Gateway.CoapClient.Request
open Gateway.CoapServer.Microcoap Gateway.CoapServer.Roundtrip Gateway.CoapServer.OptionNums
open Gateway.CoapServer.Dispatch Gateway.CoapServer.Endpoints

variable {O : Type} {eps : List (CoapEndpoint O)} {last : CoapEndpoint O} {buf : Ptr O}
  {segs : List (List UInt8)} {ip path : List UInt8}

/-! ## Paths as text -/

/-- The segments of a path, with slashes between them. -/
def joined : List (List UInt8) → List UInt8
  | [] => []
  | [seg] => seg
  | seg :: segs => seg ++ 0x2F :: joined segs

/-- A segment as it can stand in the table. -/
structure IsSegment (seg : List UInt8) : Prop where
  ne_nil : seg ≠ []
  slash : 0x2F ∉ seg
  hash : 0x23 ∉ seg
  nul : 0 ∉ seg

/-- A byte of the text is a slash or stands in a segment. -/
theorem mem_joined {b : UInt8} (h : b ∈ joined segs) : b = 0x2F ∨ ∃ seg ∈ segs, b ∈ seg := by
  induction segs with
  | nil => cases h
  | cons seg segs ih =>
    cases segs with
    | nil => exact Or.inr ⟨seg, List.mem_cons_self .., h⟩
    | cons seg' segs =>
      rw [joined, List.mem_append, List.mem_cons] at h
      · rcases h with h | h | h
        · exact Or.inr ⟨seg, List.mem_cons_self .., h⟩
        · exact Or.inl h
        · exact (ih h).imp_right fun ⟨s, hs, hb⟩ => ⟨s, List.mem_cons_of_mem _ hs, hb⟩
      · exact List.cons_ne_nil _ _

theorem hash_not_mem_joined (h : ∀ seg ∈ segs, IsSegment seg) : 0x23 ∉ joined segs := by
  intro hmem
  rcases mem_joined hmem with hb | ⟨seg, hseg, hb⟩
  · exact absurd hb (by decide)
  · exact (h seg hseg).hash hb

theorem nul_not_mem_joined (h : ∀ seg ∈ segs, IsSegment seg) : 0 ∉ joined segs := by
  intro hmem
  rcases mem_joined hmem with hb | ⟨seg, hseg, hb⟩
  · exact absurd hb (by decide)
  · exact (h seg hseg).nul hb

/-! ## Dispatch of a request -/

/-- Every request that the client of this entry builds, from whatever it read, is accepted in
    whatever memory the server receives it, and `coap_handle_req` calls the handler
    (`coapHandleReq_eq`) of the first entry of the table for GET and these segments. -/
def Reaches (buf : Ptr O) (entry : CoapIP) (eps : List (CoapEndpoint O)) (last : CoapEndpoint O)
    (segs : List (List UInt8)) : Prop :=
  ∀ (payload msgBuf : List UInt8) (mid : UInt16) (token : UInt64), payload.length ≤ msgBufLen →
    msgBuf.take payload.length = payload →
    ∃ msgSend, buildMessage entry.path msgBuf payload.length mid token = some msgSend ∧
      ∀ m : Mem O, loadBytes m buf msgSend.len = some (msgSend.buf.take msgSend.len) →
        ∃ pkt, coapParse m buf msgSend.len = .ok pkt ∧
          handledBy m pkt (eps ++ [last]) = eps.findIdx? (isResource coapMethodGet segs)

/-- The parsed packet asks for the whole path as one segment. -/
theorem asks_of_decodes {m : Mem O} {pkt : CoapPacket O} {payload : List UInt8} {mid : UInt16}
    {token : UInt64} (h : Decodes m pkt (requestOf path payload mid token)) :
    ∃ req, Asks m pkt req ∧ req.code = coapMethodGet ∧ req.path = [path] := by
  obtain ⟨opt, hopt⟩ : ∃ opt, pkt.opts = [opt] := by
    have hcount := congrArg List.length h.nums
    rw [List.length_map, List.length_map] at hcount
    exact List.length_eq_one_iff.mp hcount
  have hnums := h.nums
  have hvalues := h.reads.opts
  rw [hopt] at hnums hvalues
  have hnum : opt.num = coapOptionUriPath :=
    UInt8.toNat_inj.mp (List.cons_eq_cons.mp hnums).1
  -- the only option is the block
  have hblock : numBlock coapOptionUriPath pkt.opts = [opt] := by
    rw [hopt, numBlock, List.dropWhile_cons_of_neg (by simpa using hnum),
      List.takeWhile_cons_of_pos (by simpa using hnum)]
    rfl
  refine ⟨⟨coapMethodGet, _, _, _, [path], payload, (requestOf path payload mid token).token_le⟩,
    ⟨h.code, h.idHi, h.idLo, h.reads.tok, ?_, ?_, h.reads.payload⟩, rfl, rfl⟩
  · rw [hopt]
    exact (by decide : 1 ≤ maxopt)
  · rw [hblock]
    exact hvalues

/-- A request is handled by the first entry whose only segment is the whole text. -/
theorem buildMessage_handledBy (htable : IsTable eps last) (hpath : path.length ≤ 127)
    (hnul : 0 ∉ path) {payload msgBuf : List UInt8} (mid : UInt16) (token : UInt64)
    (hle : payload.length ≤ msgBufLen) (hread : msgBuf.take payload.length = payload) :
    ∃ msgSend, buildMessage (entry ip path).path msgBuf payload.length mid token = some msgSend ∧
      msgSend.len ≤ msgSend.buf.length ∧
      ∀ (m : Mem O) (buf : Ptr O),
        loadBytes m buf msgSend.len = some (msgSend.buf.take msgSend.len) →
        ∃ pkt, coapParse m buf msgSend.len = .ok pkt ∧
          handledBy m pkt (eps ++ [last])
            = some ((eps.findIdx? (isResource coapMethodGet [path])).getD eps.length) := by
  obtain ⟨msgSend, hbuild, hlen, hall⟩ := buildMessage_decodes hpath hnul hle hread mid token
  refine ⟨msgSend, hbuild, hlen, fun m buf hload => ?_⟩
  obtain ⟨pkt, hparse, hdec⟩ := hall m buf hload
  obtain ⟨req, hask, hcode, hpathEq⟩ := asks_of_decodes hdec
  refine ⟨pkt, hparse, ?_⟩
  rw [handledBy_table hask htable (fun h0 => by rw [hpathEq] at h0; cases h0), hcode, hpathEq]

/-- The endpoint of the path is in the table, so the request is to be handled by an entry before
    the last one. -/
theorem findIdx_isResource {ep : CoapEndpoint O} (hep : ep ∈ eps)
    (hget : ep.method = coapMethodGet) :
    ∃ i, eps.findIdx? (isResource coapMethodGet ep.path.elems) = some i := by
  refine Option.isSome_iff_exists.mp (List.findIdx?_isSome.trans ?_)
  exact List.any_eq_true.mpr ⟨ep, hep, decide_eq_true ⟨hget, rfl⟩⟩

/-- The entry at an index that was found. -/
theorem isResource_of_findIdx {path : List (List UInt8)} {i : Nat}
    (h : eps.findIdx? (isResource coapMethodGet path) = some i) :
    ∃ ep, eps[i]? = some ep ∧ ep.path.elems = path := by
  obtain ⟨hlt, hfound, -⟩ := List.findIdx?_eq_some_iff_getElem.mp h
  exact ⟨eps[i], List.getElem?_eq_getElem hlt, (of_decide_eq_true hfound).2⟩

/-- The first entry for the whole text is the first entry for the segments exactly when there is
    one segment. -/
theorem handled_iff_one_segment {ep : CoapEndpoint O} (hep : ep ∈ eps)
    (hget : ep.method = coapMethodGet) :
    some ((eps.findIdx? (isResource coapMethodGet [joined ep.path.elems])).getD eps.length)
        = eps.findIdx? (isResource coapMethodGet ep.path.elems)
      ↔ ep.path.elems.length = 1 := by
  obtain ⟨i, hi⟩ := findIdx_isResource hep hget
  constructor
  · intro hsame
    rw [hi, Option.some_inj] at hsame
    obtain ⟨hlt, -, -⟩ := List.findIdx?_eq_some_iff_getElem.mp hi
    obtain ⟨ep₁, hat₁, helems₁⟩ := isResource_of_findIdx hi
    -- not found means the last entry, which is not the endpoint
    cases hj : eps.findIdx? (isResource coapMethodGet [joined ep.path.elems]) with
    | none =>
      rw [hj, Option.getD_none] at hsame
      omega
    | some j =>
      rw [hj, Option.getD_some] at hsame
      obtain ⟨ep₂, hat₂, helems₂⟩ := isResource_of_findIdx (hsame ▸ hj)
      -- one entry, with both paths
      obtain rfl := Option.some_inj.mp (hat₁.symm.trans hat₂)
      rw [← helems₁, helems₂]
      rfl
  · intro hlen
    obtain ⟨seg, hseg⟩ := List.length_eq_one_iff.mp hlen
    rw [hseg] at hi ⊢
    rw [joined, hi]
    rfl

/-- The requests of an entry reach the endpoint exactly when its path has one segment. -/
theorem reaches_entry_iff (buf : Ptr O) (htable : IsTable eps last)
    {ep : CoapEndpoint O} (hep : ep ∈ eps) (hget : ep.method = coapMethodGet)
    (hsegs : ∀ seg ∈ ep.path.elems, IsSegment seg) (hlen : (joined ep.path.elems).length ≤ 127) :
    Reaches buf (entry ip (joined ep.path.elems)) eps last ep.path.elems
      ↔ ep.path.elems.length = 1 := by
  rw [← handled_iff_one_segment hep hget]
  have hnul := nul_not_mem_joined hsegs
  constructor
  · intro hreach
    -- one request decides: what it carries besides the path does not matter
    obtain ⟨msgSend, hbuild, hall⟩ := hreach [0x24] [0x24] 0 0 (by decide) rfl
    obtain ⟨msgSend', hbuild', hle, hall'⟩ := @buildMessage_handledBy _ _ _ ip _ htable hlen hnul
      [0x24] [0x24] 0 0 (by decide) rfl
    obtain rfl := Option.some_inj.mp (hbuild.symm.trans hbuild')
    -- a memory with the datagram at `buf`
    have hload : loadBytes (fun _ : O => List.replicate buf.off 0 ++ msgSend.buf) buf msgSend.len
        = some (msgSend.buf.take msgSend.len) := by
      refine loadBytes_eq_some.mpr ⟨?_, ?_⟩
      · rw [List.length_append, List.length_replicate]
        omega
      · have hdrop : (List.replicate buf.off (0 : UInt8) ++ msgSend.buf).drop buf.off
            = msgSend.buf := List.drop_left' List.length_replicate
        rw [slice, hdrop]
    obtain ⟨pkt, hparse, hhandled⟩ := hall _ hload
    obtain ⟨pkt', hparse', hhandled'⟩ := hall' _ buf hload
    obtain rfl : pkt = pkt' := by
      rw [hparse] at hparse'
      cases hparse'
      rfl
    exact hhandled'.symm.trans hhandled
  · intro hsame payload msgBuf mid token hle hread
    obtain ⟨msgSend, hbuild, -, hall⟩ :=
      @buildMessage_handledBy _ _ _ ip _ htable hlen hnul payload msgBuf mid token hle hread
    refine ⟨msgSend, hbuild, fun m hload => ?_⟩
    obtain ⟨pkt, hparse, hhandled⟩ := hall m buf hload
    exact ⟨pkt, hparse, hhandled.trans hsame⟩

/-! ## From the table to the endpoint -/

/-- A line of the table becomes an entry. -/
theorem mem_cells_of_line {iplist iplist' : IpList} {t : Sequence Unit CoapIP}
    {addrs : List Addr} {file rest : List UInt8} (hR : Holds iplist t)
    (hfree : ∀ a ∈ addrs, iplist.heap a = none ∨ a ∈ t.cells.map Prod.fst)
    (hnodup : addrs.Nodup) (hcount : (entriesOf (linesOf file)).length ≤ addrs.length)
    (hrun : parsTxt (addrs.map some) file iplist = some iplist') (hslash : 0x2F ∉ ip)
    (hipNul : 0 ∉ ip) (hip : ip.length < coapIpLen) (hhash : 0x23 ∉ path) (hnul : 0 ∉ path)
    (hline : ip ++ 0x2F :: (path ++ 0x23 :: rest) ∈ linesOf file) :
    path.length ≤ 127 ∧ ∃ cells a, Cells iplist'.heap iplist'.list cells ∧
      (a, entry ip path) ∈ cells := by
  have hlen := readLines_length hline
  simp only [List.length_append, List.length_cons] at hlen
  have hparse := @parseLine_entry ip path rest hslash hipNul hhash hnul (Nat.le_of_lt hip)
    (by unfold ParsTxt.coapPathLen; omega)
  have hmem : entry ip path ∈ entriesOf (linesOf file) :=
    List.mem_filterMap.mpr ⟨_, hline, by rw [hparse]; rfl⟩
  obtain ⟨-, hR'⟩ := @parsTxt_holds _ _ _ (addrs.map some) file hR
    (fun a ha => hfree a (by simpa using ha)) (by rwa [List.filterMap_map, Function.id_comp, List.filterMap_some])
    hrun
  -- there is memory for every entry, so the entry of the line got a node
  rw [← placed_snd hcount] at hmem
  obtain ⟨⟨a, x⟩, hcell, hx⟩ := List.mem_map.mp hmem
  obtain rfl : x = entry ip path := hx
  exact ⟨by omega, _, a, hR'.cells, hcell⟩

/-- A line for the path of a GET endpoint, read by `ParsTxt` into whatever table was there,
    becomes an entry, and the requests of the entry reach the endpoint exactly when the path has
    one segment. -/
theorem resourcePath_reaches_iff {iplist iplist' : IpList} {t : Sequence Unit CoapIP}
    {addrs : List Addr} {file rest : List UInt8} {ep : CoapEndpoint O} (buf : Ptr O)
    (hR : Holds iplist t)
    (hfree : ∀ a ∈ addrs, iplist.heap a = none ∨ a ∈ t.cells.map Prod.fst)
    (hnodup : addrs.Nodup) (hcount : (entriesOf (linesOf file)).length ≤ addrs.length)
    (hrun : parsTxt (addrs.map some) file iplist = some iplist') (htable : IsTable eps last)
    (hep : ep ∈ eps) (hget : ep.method = coapMethodGet)
    (hsegs : ∀ seg ∈ ep.path.elems, IsSegment seg) (hslash : 0x2F ∉ ip) (hipNul : 0 ∉ ip)
    (hip : ip.length < coapIpLen)
    (hline : ip ++ 0x2F :: (joined ep.path.elems ++ 0x23 :: rest) ∈ linesOf file) :
    ∃ cells a, Cells iplist'.heap iplist'.list cells ∧
      (a, entry ip (joined ep.path.elems)) ∈ cells ∧
      (Reaches buf (entry ip (joined ep.path.elems)) eps last ep.path.elems
        ↔ ep.path.elems.length = 1) := by
  obtain ⟨hlen, cells, a, hcells, hcell⟩ := mem_cells_of_line hR hfree hnodup hcount hrun hslash
    hipNul hip (hash_not_mem_joined hsegs) (nul_not_mem_joined hsegs) hline
  exact ⟨cells, a, hcells, hcell, reaches_entry_iff buf htable hep hget hsegs hlen⟩

/-! ## The table of the server -/

/-- The entries of `endpoints` before the last one. -/
def served : List (CoapEndpoint Obj) := endpoints.take 3

/-- The last entry of `endpoints`. -/
def lastEndpoint : CoapEndpoint Obj :=
  { method := 0, handler := none, path := { count := 0, elems := [] }, coreAttr := none }

theorem served_isTable : IsTable served lastEndpoint := by
  refine ⟨?_, ?_, rfl⟩ <;>
    simp only [served, endpoints, List.take_succ_cons, List.take_zero, List.mem_cons,
      List.not_mem_nil, or_false]
  · rintro ep (rfl | rfl | rfl) <;> exact Option.some_ne_none _
  · rintro ep (rfl | rfl | rfl) <;> rfl

/-- `iplist` after `list_init`. -/
def emptyIpList : IpList := initState (fun _ => none) (some fun _ _ => ()) ()

theorem emptyIpList_holds :
    Holds emptyIpList { cells := [], destroy := some fun _ _ => (), out := () } :=
  ⟨cells_listInit _, rfl, rfl⟩

/-- The line `10.0.0.2/hello#`. -/
def helloLine : List UInt8 :=
  cstr ['1', '0', '.', '0', '.', '0', '.', '2', '/', 'h', 'e', 'l', 'l', 'o', '#', '\n']

/-- The line `10.0.0.2/.well-known/core#`. -/
def coreLine : List UInt8 :=
  cstr ['1', '0', '.', '0', '.', '0', '.', '2', '/', '.', 'w', 'e', 'l', 'l', '-', 'k', 'n', 'o',
    'w', 'n', '/', 'c', 'o', 'r', 'e', '#', '\n']

/-- `10.0.0.2`. -/
def sampleIp : List UInt8 := cstr ['1', '0', '.', '0', '.', '0', '.', '2']

theorem resourcePath_reaches_iff_hello :
    ∃ iplist' cells a, parsTxt [some 1] helloLine emptyIpList = some iplist' ∧
      Cells iplist'.heap iplist'.list cells ∧
      (a, entry sampleIp (joined pathHello.elems)) ∈ cells ∧
      Reaches ⟨.buf, 0⟩ (entry sampleIp (joined pathHello.elems)) served lastEndpoint
        pathHello.elems := by
  have hrun : (parsTxt [some 1] helloLine emptyIpList).isSome = true := by decide
  obtain ⟨iplist', hrun⟩ := Option.isSome_iff_exists.mp hrun
  have hsegs : ∀ seg ∈ pathHello.elems, IsSegment seg := by
    intro seg hseg
    rw [List.mem_singleton.mp hseg]
    exact ⟨by decide, by decide, by decide, by decide⟩
  obtain ⟨cells, a, hcells, hcell, hiff⟩ := @resourcePath_reaches_iff Obj served lastEndpoint
    sampleIp emptyIpList iplist' _ [1] helloLine [0x0A]
    ⟨coapMethodGet, some handleGetHello, pathHello, some (cstr ['c', 't', '=', '0'])⟩ ⟨.buf, 0⟩
    emptyIpList_holds (fun _ _ => Or.inl rfl) (by decide) (by decide) hrun served_isTable
    (List.mem_cons_of_mem _ (List.mem_cons_self ..)) rfl hsegs (by decide) (by decide) (by decide)
    (by decide)
  exact ⟨iplist', cells, a, hrun, hcells, hcell, hiff.mpr rfl⟩

/-- The discovery resource of the server has two segments: the requests for it reach nothing. -/
theorem not_reaches_wellKnownCore :
    IsTable served lastEndpoint ∧
      (∃ ep ∈ served, ep.method = coapMethodGet ∧ ep.path = pathWellKnownCore) ∧
      (∀ seg ∈ pathWellKnownCore.elems, IsSegment seg) ∧
      sampleIp ++ 0x2F :: (joined pathWellKnownCore.elems ++ 0x23 :: [0x0A]) ∈ linesOf coreLine ∧
      ∃ iplist' cells a, parsTxt [some 1] coreLine emptyIpList = some iplist' ∧
        Cells iplist'.heap iplist'.list cells ∧
        (a, entry sampleIp (joined pathWellKnownCore.elems)) ∈ cells ∧
        ¬ Reaches ⟨.buf, 0⟩ (entry sampleIp (joined pathWellKnownCore.elems)) served lastEndpoint
          pathWellKnownCore.elems := by
  have hrun : (parsTxt [some 1] coreLine emptyIpList).isSome = true := by decide
  obtain ⟨iplist', hrun⟩ := Option.isSome_iff_exists.mp hrun
  have hsegs : ∀ seg ∈ pathWellKnownCore.elems, IsSegment seg := by
    intro seg hseg
    rcases List.mem_cons.mp hseg with rfl | hseg
    · exact ⟨by decide, by decide, by decide, by decide⟩
    · rw [List.mem_singleton.mp hseg]
      exact ⟨by decide, by decide, by decide, by decide⟩
  have hline : sampleIp ++ 0x2F :: (joined pathWellKnownCore.elems ++ 0x23 :: [0x0A])
      ∈ linesOf coreLine := by
    decide
  have hep : (⟨coapMethodGet, some handleGetWellKnownCore, pathWellKnownCore,
      some (cstr ['c', 't', '=', '4', '0'])⟩ : CoapEndpoint Obj) ∈ served :=
    List.mem_cons_self ..
  obtain ⟨hlen, cells, a, hcells, hcell⟩ := @mem_cells_of_line _ _ _ _ _ [1] _ _ emptyIpList_holds
    (fun _ _ => Or.inl rfl) (by decide) (by decide) hrun (by decide) (by decide) (by decide)
    (hash_not_mem_joined hsegs) (nul_not_mem_joined hsegs) hline
  refine ⟨served_isTable, ⟨_, hep, rfl, rfl⟩, hsegs, hline, iplist', cells, a, hrun, hcells, hcell,
    fun hreach => ?_⟩
  have hone := (reaches_entry_iff ⟨.buf, 0⟩ served_isTable hep rfl hsegs hlen).mp hreach
  exact absurd hone (by decide)

end Gateway.Iptable.ResourcePath
