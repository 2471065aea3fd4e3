/-
  Gateway.Iptable.ParsTxt

  The table of the clients (`iptable/coap_iptable.c`): `ParsTxt` empties `iplist`,
  reads `IPtable.txt` line by line and appends an entry for every line of the form
  `ip/path#`.

  A file is its bytes, read from the front; `IPtable.txt` can be opened and
  `malloc(sizeof(coapIP))` succeeds, the function exits otherwise.  `allocs` are the
  addresses that `malloc` returns in `list_ins_next`, one call behind the other.  A
  `memcpy` that would leave its array is a fault.
-/

import Gateway.Lib.CString
import Gateway.Comm.ListRuns

namespace Gateway.Iptable.ParsTxt

open Gateway.Lib.ByteWindow Gateway.Lib.CString Gateway.Lib.NodeChain
open Gateway.Comm.LinkedList Gateway.Comm.ListRuns

/-! ## The model -/

/-- `COAP_PATH_LEN`. -/
def coapPathLen : Nat := 128

/-- `COAP_IP_LEN`. -/
def coapIpLen : Nat := 64

/-- `coapIP`; `none` is a field that was not written since `malloc`. -/
structure CoapIP where
  coapSocket : Int
  path : List UInt8
  ip : List UInt8
  pid : Option Nat
  fifoFd : Option Nat
  deriving DecidableEq, Repr

/-- `iplist`, with its destructor `free`. -/
abbrev IpList := State Unit CoapIP

/-- The characters that `fgets` takes off a file, at most `n`, and whether it met the end. -/
def fgetsChars : Nat → List UInt8 → List UInt8 × Bool
  | 0, _ => ([], false)
  | _ + 1, [] => ([], true)
  | n + 1, b :: bs =>
    if b = 0x0A then ([b], false) else
    let (s, eof) := fgetsChars n bs
    (b :: s, eof)

/-- `fgets(buff, size, file)`: the string, `none` for NULL, the rest of the file and `feof`. -/
def fgets (size : Nat) (file : List UInt8) : Option (List UInt8) × List UInt8 × Bool :=
  let (s, eof) := fgetsChars (size - 1) file
  (if s = [] then none else some s, file.drop s.length, eof)

/-- `sizeof(buff)`. -/
def buffSize : Nat := 128

/-- What a turn makes of the line `s`: an entry, or none at a `continue`. -/
def parseLine (s : List UInt8) : Option (Option CoapIP) :=
  match strchr s 0x2F with
  | none => some none
  | some p => do
    let ip ← putAt (List.replicate coapIpLen 0) 0 (s.take p)
    let p := p + 1
    match strchr (s.drop p) 0x23 with
    | none => some none
    | some e => do
      let path ← putAt (List.replicate coapPathLen 0) 0 ((s.drop p).take e)
      some (some { coapSocket := 0, path := path, ip := ip, pid := none, fifoFd := none })

/-- `list_append(&iplist, ipdata)`. -/
def appendEntry (alloc : Option Addr) (iplist : IpList) (ipdata : CoapIP) : Option IpList := do
  let (_, heap, list) ← listAppend iplist.heap iplist.list alloc ipdata
  some { iplist with heap := heap, list := list }

/-- A turn of the loop of `ParsTxt` behind `fgets`, with the addresses that are left. -/
def parsTxtTurn (allocs : List (Option Addr)) (s : Option (List UInt8)) (iplist : IpList) :
    Option (List (Option Addr) × IpList) :=
  match s with
  | none => some (allocs, iplist)
  | some s => do
    match ← parseLine s with
    | none => some (allocs, iplist)
    | some ipdata => do
      let iplist ← appendEntry allocs.head?.join iplist ipdata
      some (allocs.tail, iplist)

/-- The loop of `ParsTxt`.  A turn that does not meet the end of the file takes at least one
    byte off it. -/
def parsTxtLoop : Nat → List (Option Addr) → List UInt8 → IpList → Option IpList
  | 0, _, _, _ => none
  | fuel + 1, allocs, file, iplist => do
    let (s, file, eof) := fgets buffSize file
    let (allocs, iplist) ← parsTxtTurn allocs s iplist
    if eof then some iplist else parsTxtLoop fuel allocs file iplist

/-- The start of `ParsTxt`: the table is emptied. -/
def emptyTable (iplist : IpList) : Option IpList :=
  if 0 < iplist.list.size then listClean iplist else some iplist

/-- `ParsTxt`. -/
def parsTxt (allocs : List (Option Addr)) (file : List UInt8) (iplist : IpList) :
    Option IpList := do
  let iplist ← emptyTable iplist
  parsTxtLoop (file.length + 1) allocs file iplist

/-! ## Lines -/

/-- The strings that `fgets` returns up to the end of the file. -/
def readLines : Nat → List UInt8 → List (List UInt8)
  | 0, _ => []
  | fuel + 1, file =>
    let (s, file, eof) := fgets buffSize file
    s.toList ++ if eof then [] else readLines fuel file

/-- The lines of the file, as `ParsTxt` reads them. -/
def linesOf (file : List UInt8) : List (List UInt8) := readLines (file.length + 1) file

/-- The entries of the file, in its order. -/
def entriesOf (lines : List (List UInt8)) : List CoapIP :=
  lines.filterMap fun s => (parseLine s).join

theorem fgetsChars_length_le (n : Nat) (file : List UInt8) : (fgetsChars n file).1.length ≤ n := by
  induction n generalizing file with
  | zero => exact Nat.le_refl 0
  | succ n ih =>
    cases file with
    | nil => exact Nat.zero_le _
    | cons b bs =>
      rw [fgetsChars]
      split
      · exact Nat.succ_le_succ (Nat.zero_le n)
      · exact Nat.succ_le_succ (ih bs)

/-- A line fits in `buff`, with its NUL. -/
theorem readLines_length {fuel : Nat} {file s : List UInt8} (h : s ∈ readLines fuel file) :
    s.length ≤ 127 := by
  induction fuel generalizing file with
  | zero => cases h
  | succ fuel ih =>
    rw [readLines] at h
    simp only at h
    rcases List.mem_append.mp h with h | h
    · have hlen := fgetsChars_length_le (buffSize - 1) file
      rw [fgets] at h
      simp only at h
      split at h
      · cases h
      · rw [List.mem_singleton.mp h]
        exact hlen
    · split at h
      · cases h
      · exact ih h

/-- The entry of a line of the form `ip/path#`, whatever stands behind. -/
def entry (ip path : List UInt8) : CoapIP where
  coapSocket := 0
  path := padded coapPathLen path
  ip := padded coapIpLen ip
  pid := none
  fifoFd := none

theorem parseLine_entry {ip path rest : List UInt8} (hslash : 0x2F ∉ ip) (hnul : 0 ∉ ip)
    (hhash : 0x23 ∉ path) (hnul' : 0 ∉ path) (hip : ip.length ≤ coapIpLen)
    (hpath : path.length ≤ coapPathLen) :
    parseLine (ip ++ 0x2F :: (path ++ 0x23 :: rest)) = some (some (entry ip path)) := by
  have hdrop : (ip ++ 0x2F :: (path ++ 0x23 :: rest)).drop (ip.length + 1)
      = path ++ 0x23 :: rest := by
    rw [List.drop_append, List.drop_eq_nil_of_le (by omega), Nat.add_sub_cancel_left]
    rfl
  rw [parseLine, strchr_append hslash hnul (by decide)]
  simp only [List.take_left, hdrop, strchr_append hhash hnul' (by decide), putAt_zeros hip,
    putAt_zeros hpath, Option.bind_eq_bind, Option.bind_some]
  rfl

/-! ## The list -/

/-- What `malloc` returns are different addresses that are free, or NULL. -/
structure FreshAll (heap : Heap CoapIP) (allocs : List (Option Addr)) : Prop where
  free : ∀ a, some a ∈ allocs → heap a = none
  nodup : (allocs.filterMap id).Nodup

/-- The entries that get a node. -/
def placed (allocs : List (Option Addr)) (entries : List CoapIP) : List (Addr × CoapIP) :=
  (allocs.zip entries).filterMap fun (alloc, x) => alloc.map fun a => (a, x)

/-- Where `malloc` does not fail, all entries get a node. -/
theorem placed_snd {addrs : List Addr} {entries : List CoapIP}
    (h : entries.length ≤ addrs.length) :
    (placed (addrs.map some) entries).map Prod.snd = entries := by
  induction entries generalizing addrs with
  | nil => simp [placed]
  | cons x xs ih =>
    cases addrs with
    | nil => cases h
    | cons a addrs => exact congrArg (x :: ·) (ih (by simpa using h))

theorem placed_cons (allocs : List (Option Addr)) (x : CoapIP) (xs : List CoapIP) :
    placed allocs (x :: xs)
      = (allocs.head?.join.map fun a => (a, x)).toList ++ placed allocs.tail xs := by
  match allocs with
  | [] => rfl
  | none :: allocs => rfl
  | some a :: allocs => rfl

theorem append_cells (t : Sequence Unit CoapIP) (alloc : Option Addr) (x : CoapIP) :
    (t.append alloc x).2
      = { t with cells := t.cells ++ (alloc.map fun a => (a, x)).toList } := by
  cases alloc with
  | none =>
    show t = { t with cells := t.cells ++ [] }
    rw [List.append_nil]
  | some a => rfl

section List

variable {iplist iplist' : IpList} {t : Sequence Unit CoapIP} {allocs : List (Option Addr)}
  {x : CoapIP}

/-- An entry is appended, and the addresses of the later ones stay free. -/
theorem appendEntry_holds (hR : Holds iplist t) (hfresh : FreshAll iplist.heap allocs) :
    ∃ iplist', appendEntry allocs.head?.join iplist x = some iplist' ∧
      Holds iplist' (t.append allocs.head?.join x).2 ∧ FreshAll iplist'.heap allocs.tail := by
  match allocs, hfresh with
  -- `malloc` fails: the entry is lost, the list is as it was
  | [], hfresh => exact ⟨iplist, rfl, hR, hfresh⟩
  | none :: allocs, hfresh =>
    exact ⟨iplist, rfl, hR, fun a ha => hfresh.free a (List.mem_cons_of_mem _ ha), hfresh.nodup⟩
  | some new :: allocs, hfresh =>
    have hnew : iplist.heap new = none := hfresh.free new (List.mem_cons_self ..)
    obtain ⟨hnodup, hnodup'⟩ := List.nodup_cons.mp hfresh.nodup
    obtain ⟨h', list', hrun, hcells⟩ :=
      @Cells.insNext_tail _ _ _ x _ _ hR.cells hnew
    refine ⟨{ iplist with heap := h', list := list' }, ?_, ⟨hcells, hR.destroy_eq, hR.out_eq⟩,
      fun a ha => ?_, hnodup'⟩
    · show (listInsNext iplist.heap iplist.list (some new) iplist.list.tail x).bind _ = _
      rw [hrun]
      rfl
    -- a later address is not the one that was just taken
    · have hne : a ≠ new := by
        rintro rfl
        exact hnodup (List.mem_filterMap.mpr ⟨some a, ha, rfl⟩)
      exact insNext_tail_free hrun (hfresh.free a (List.mem_cons_of_mem _ ha)) hne

/-- A turn appends the entry of its line, if there is one. -/
theorem parsTxtTurn_holds {s : Option (List UInt8)} {allocs' : List (Option Addr)}
    (hR : Holds iplist t) (hfresh : FreshAll iplist.heap allocs)
    (hrun : parsTxtTurn allocs s iplist = some (allocs', iplist')) :
    (∀ l ∈ s.toList, parseLine l ≠ none) ∧ FreshAll iplist'.heap allocs' ∧
      ∃ cells, Holds iplist' { t with cells := t.cells ++ cells } ∧
        ∀ lines, placed allocs (entriesOf (s.toList ++ lines))
          = cells ++ placed allocs' (entriesOf lines) := by
  have hsame : Holds iplist { t with cells := t.cells ++ [] } := by
    rw [List.append_nil]
    exact hR
  cases s with
  | none =>
    cases hrun
    exact ⟨fun l hl => absurd hl List.not_mem_nil, hfresh, [], hsame, fun lines => rfl⟩
  | some s =>
    obtain ⟨line, hline, hrun⟩ := Option.bind_eq_some_iff.mp hrun
    refine ⟨fun l hl => ?_, ?_⟩
    · rw [List.mem_singleton.mp hl, hline]
      exact Option.some_ne_none _
    cases line with
    -- a line without both separators is skipped
    | none =>
      cases hrun
      refine ⟨hfresh, [], hsame, fun lines => ?_⟩
      rw [entriesOf, Option.toList_some, List.singleton_append, List.filterMap_cons, hline]
      rfl
    | some x =>
      obtain ⟨iplist₁, happend, hrun⟩ := Option.bind_eq_some_iff.mp hrun
      cases hrun
      obtain ⟨iplist₂, happend', hR', hfresh'⟩ := @appendEntry_holds _ _ _ x hR hfresh
      obtain rfl := Option.some_inj.mp (happend.symm.trans happend')
      rw [append_cells] at hR'
      refine ⟨hfresh', _, hR', fun lines => ?_⟩
      rw [entriesOf, Option.toList_some, List.singleton_append, List.filterMap_cons, hline]
      exact placed_cons allocs x _

theorem parsTxtLoop_succ (fuel : Nat) (allocs : List (Option Addr)) (file : List UInt8)
    (iplist : IpList) : parsTxtLoop (fuel + 1) allocs file iplist
      = (parsTxtTurn allocs (fgets buffSize file).1 iplist).bind fun r =>
          if (fgets buffSize file).2.2 then some r.2
          else parsTxtLoop fuel r.1 (fgets buffSize file).2.1 r.2 := rfl

/-- The loop appends the entries of the lines; none of the lines leaves its arrays. -/
theorem parsTxtLoop_holds {fuel : Nat} {file : List UInt8} (hR : Holds iplist t)
    (hfresh : FreshAll iplist.heap allocs)
    (hrun : parsTxtLoop fuel allocs file iplist = some iplist') :
    (∀ s ∈ readLines fuel file, parseLine s ≠ none) ∧
      Holds iplist' { t with
        cells := t.cells ++ placed allocs (entriesOf (readLines fuel file)) } := by
  induction fuel generalizing allocs file iplist t with
  | zero => cases hrun
  | succ fuel ih =>
    rw [parsTxtLoop_succ] at hrun
    obtain ⟨⟨allocs₁, iplist₁⟩, hturn, hrun⟩ := Option.bind_eq_some_iff.mp hrun
    obtain ⟨hline, hfresh₁, cells, hR₁, hplaced⟩ := parsTxtTurn_holds hR hfresh hturn
    rw [readLines]
    simp only [hplaced]
    -- `feof` is asked behind the turn, so the last line counts as well
    by_cases heof : (fgets buffSize file).2.2 = true
    · rw [if_pos heof] at hrun ⊢
      cases hrun
      rw [List.append_nil]
      have hnil : placed allocs₁ (entriesOf []) = [] := by
        show (allocs₁.zip []).filterMap _ = []
        rw [List.zip_nil_right]
        rfl
      rw [hnil, List.append_nil]
      exact ⟨hline, hR₁⟩
    · rw [if_neg heof] at hrun ⊢
      obtain ⟨hlines, hR'⟩ := ih hR₁ hfresh₁ hrun
      refine ⟨fun s hs => ?_, ?_⟩
      · rcases List.mem_append.mp hs with hs | hs
        · exact hline s hs
        · exact hlines s hs
      · rw [← List.append_assoc]
        exact hR'

/-- The table is empty afterwards, and its nodes are free. -/
theorem emptyTable_holds (hR : Holds iplist t)
    (hfree : ∀ a, some a ∈ allocs → iplist.heap a = none ∨ a ∈ t.cells.map Prod.fst)
    (hnodup : (allocs.filterMap id).Nodup) (hrun : emptyTable iplist = some iplist') :
    Holds iplist' t.clean ∧ FreshAll iplist'.heap allocs := by
  obtain ⟨iplist₁, hclean, hR₁⟩ := listClean_spec hR
  rw [emptyTable] at hrun
  split at hrun
  · obtain rfl := Option.some_inj.mp (hrun.symm.trans hclean)
    exact ⟨hR₁, fun a ha => listClean_free hR hclean (hfree a ha), hnodup⟩
  · next hsize =>
    -- an empty list is left as it is
    cases hrun
    have hsizeEq := hR.cells.size_eq
    have hnil : t.cells = [] := List.length_eq_zero_iff.mp (by omega)
    have hsame : t.clean = t := by
      obtain ⟨cells, destroy, out⟩ := t
      obtain rfl : cells = [] := hnil
      cases destroy <;> rfl
    refine ⟨hsame ▸ hR, fun a ha => ?_, hnodup⟩
    have ha := hfree a ha
    rw [hnil] at ha
    exact ha.resolve_right List.not_mem_nil

/-- `ParsTxt` replaces the entries by those of the file, as far as `malloc` gives nodes.  The
    nodes of the old entries may be taken again. -/
theorem parsTxt_holds {file : List UInt8} (hR : Holds iplist t)
    (hfree : ∀ a, some a ∈ allocs → iplist.heap a = none ∨ a ∈ t.cells.map Prod.fst)
    (hnodup : (allocs.filterMap id).Nodup) (hrun : parsTxt allocs file iplist = some iplist') :
    (∀ s ∈ linesOf file, parseLine s ≠ none) ∧
      Holds iplist' { t.clean with cells := placed allocs (entriesOf (linesOf file)) } := by
  obtain ⟨iplist₁, hempty, hrun⟩ := Option.bind_eq_some_iff.mp hrun
  obtain ⟨hR₁, hfresh⟩ := emptyTable_holds hR hfree hnodup hempty
  exact parsTxtLoop_holds hR₁ hfresh hrun

end List

end Gateway.Iptable.ParsTxt
