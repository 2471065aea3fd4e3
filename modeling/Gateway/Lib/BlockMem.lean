/-
  Gateway.Lib.BlockMem

  A block memory for C code: every object (array, static variable, buffer) is a
  list of bytes of fixed length, a pointer is an object and an offset into it,
  and an access outside the object is a fault.  Two pointers into one object
  alias, so code that overwrites a buffer while it still holds pointers into it
  can be run as it stands.

  `Outcome` is the result of a C function that returns an error code: a value,
  an error, or a fault.  Functions that cannot return an error code use `Option`,
  with `none` for the fault.
-/

import Gateway.Lib.ByteWindow

namespace Gateway.Lib.BlockMem

open Gateway.Lib.ByteWindow

/-! ## Outcomes -/

/-- What a call ends in: a value, an error code, or an access outside the
    objects of the program. -/
inductive Outcome (ε α : Type) where
  | ok (a : α)
  | err (e : ε)
  | fault
  deriving DecidableEq, Repr

namespace Outcome

variable {ε α β : Type}

/-- Run `f` on the value; errors and faults end the computation. -/
def bind (x : Outcome ε α) (f : α → Outcome ε β) : Outcome ε β :=
  match x with
  | ok a => f a
  | err e => err e
  | fault => fault

instance : Monad (Outcome ε) where
  pure := ok
  bind := bind

/-- A memory access inside a function that can return an error code. -/
def ofOption : Option α → Outcome ε α
  | some a => ok a
  | none => fault

instance : MonadLift Option (Outcome ε) where
  monadLift := ofOption

@[simp] theorem pure_eq (a : α) : (pure a : Outcome ε α) = ok a := rfl
@[simp] theorem ok_bind (a : α) (f : α → Outcome ε β) : (ok a >>= f) = f a := rfl
@[simp] theorem err_bind (e : ε) (f : α → Outcome ε β) : (err e >>= f) = err e := rfl
@[simp] theorem fault_bind (f : α → Outcome ε β) : ((fault : Outcome ε α) >>= f) = fault := rfl
@[simp] theorem lift_some (a : α) : (monadLift (some a) : Outcome ε α) = ok a := rfl
@[simp] theorem lift_none : (monadLift (none : Option α) : Outcome ε α) = fault := rfl
@[simp] theorem liftM_some (a : α) : (liftM (some a) : Outcome ε α) = ok a := rfl
@[simp] theorem liftM_none : (liftM (none : Option α) : Outcome ε α) = fault := rfl

/-- A computation that ends in a value has one at every step. -/
theorem bind_eq_ok {x : Outcome ε α} {f : α → Outcome ε β} {b : β} :
    (x >>= f) = ok b ↔ ∃ a, x = ok a ∧ f a = ok b := by
  cases x with
  | ok a =>
    constructor
    · intro h
      exact ⟨a, rfl, h⟩
    · rintro ⟨a', ha, h⟩
      cases ha
      exact h
  | err e =>
    constructor
    · intro h
      cases h
    · rintro ⟨_, h, -⟩
      cases h
  | fault =>
    constructor
    · intro h
      cases h
    · rintro ⟨_, h, -⟩
      cases h

/-- A computation fails in its first step or, behind a value of that, in the second. -/
theorem bind_eq_err {x : Outcome ε α} {f : α → Outcome ε β} {e : ε} :
    (x >>= f) = err e ↔ x = err e ∨ ∃ a, x = ok a ∧ f a = err e := by
  cases x with
  | ok a =>
    constructor
    · intro h
      exact Or.inr ⟨a, rfl, h⟩
    · rintro (h | ⟨a', ha, h⟩)
      · cases h
      · cases ha
        exact h
  | err e' =>
    constructor
    · intro h
      exact Or.inl (congrArg err (Outcome.err.inj h))
    · rintro (h | ⟨_, h, -⟩)
      · exact congrArg err (Outcome.err.inj h)
      · cases h
  | fault =>
    constructor
    · intro h
      cases h
    · rintro (h | ⟨_, h, -⟩) <;> cases h

theorem liftM_eq_ok {x : Option α} {a : α} : (liftM x : Outcome ε α) = ok a ↔ x = some a := by
  cases x with
  | none =>
    constructor <;> intro h <;> cases h
  | some b =>
    constructor <;> intro h <;> cases h <;> rfl

end Outcome

/-! ## Pointers and memory -/

/-- A pointer: an object and an offset into it. -/
structure Ptr (O : Type) where
  obj : O
  off : Nat
  deriving DecidableEq, Repr

/-- `p + k`. -/
def Ptr.add {O : Type} (p : Ptr O) (k : Nat) : Ptr O := { p with off := p.off + k }

@[simp] theorem Ptr.add_obj {O : Type} (p : Ptr O) (k : Nat) : (p.add k).obj = p.obj := rfl
@[simp] theorem Ptr.add_off {O : Type} (p : Ptr O) (k : Nat) : (p.add k).off = p.off + k := rfl
@[simp] theorem Ptr.add_zero {O : Type} (p : Ptr O) : p.add 0 = p := rfl

theorem Ptr.add_add {O : Type} (p : Ptr O) (j k : Nat) : (p.add j).add k = p.add (j + k) := by
  rw [Ptr.add, Ptr.add, Ptr.add, Nat.add_assoc]

/-- The bytes of every object. -/
abbrev Mem (O : Type) := O → List UInt8

variable {O : Type}

/-- `*p`. -/
def load (m : Mem O) (p : Ptr O) : Option UInt8 := (m p.obj)[p.off]?

/-- The `n` bytes from `p` on. -/
def loadBytes (m : Mem O) (p : Ptr O) (n : Nat) : Option (List UInt8) :=
  if p.off + n ≤ (m p.obj).length then some (slice (m p.obj) p.off n) else none

section Store

variable [DecidableEq O]

/-- `m` with the bytes of object `o` replaced. -/
def setObj (m : Mem O) (o : O) (l : List UInt8) : Mem O :=
  fun o' => if o' = o then l else m o'

/-- The bytes `w` stored from `p` on. -/
def storeBytes (m : Mem O) (p : Ptr O) (w : List UInt8) : Option (Mem O) :=
  if p.off + w.length ≤ (m p.obj).length then
    some (setObj m p.obj (splice (m p.obj) p.off w))
  else none

/-- `*p = b`. -/
def store (m : Mem O) (p : Ptr O) (b : UInt8) : Option (Mem O) := storeBytes m p [b]

/-- `memcpy(dst, src, n)`, or `memmove` where the windows overlap: all bytes are
    read before the first is written.  With `n = 0` no pointer is followed. -/
def memcpy (m : Mem O) (dst : Ptr O) (src : Option (Ptr O)) (n : Nat) : Option (Mem O) :=
  if n = 0 then some m else do
    let s ← src
    let w ← loadBytes m s n
    storeBytes m dst w

@[simp] theorem setObj_self (m : Mem O) (o : O) (l : List UInt8) : setObj m o l o = l := by
  simp [setObj]

theorem setObj_ne (m : Mem O) {o o' : O} (l : List UInt8) (h : o' ≠ o) :
    setObj m o l o' = m o' := by
  simp [setObj, h]

@[simp] theorem setObj_setObj (m : Mem O) (o : O) (l l' : List UInt8) :
    setObj (setObj m o l) o l' = setObj m o l' := by
  funext o'
  by_cases h : o' = o <;> simp [setObj, h]

@[simp] theorem setObj_eq_self (m : Mem O) (o : O) : setObj m o (m o) = m := by
  funext o'
  by_cases h : o' = o <;> simp [setObj, h]

/-! ## Rules for loads and stores -/

theorem storeBytes_eq {m : Mem O} {p : Ptr O} {w : List UInt8}
    (h : p.off + w.length ≤ (m p.obj).length) :
    storeBytes m p w = some (setObj m p.obj (splice (m p.obj) p.off w)) := by
  rw [storeBytes, if_pos h]

/-- Loading through a pointer that the overwritten window does not reach. -/
theorem loadBytes_setObj_splice {m : Mem O} {o : O} {i n : Nat} {w : List UInt8} {p : Ptr O}
    (h : i + w.length ≤ (m o).length)
    (hp : p.obj = o → p.off + n ≤ i ∨ i + w.length ≤ p.off) :
    loadBytes (setObj m o (splice (m o) i w)) p n = loadBytes m p n := by
  by_cases ho : p.obj = o
  · obtain ⟨o', off⟩ := p
    simp only at ho hp
    subst ho
    simp only [loadBytes, setObj_self, splice_length h, slice_splice_disjoint h (hp rfl)]
  · simp only [loadBytes, setObj_ne m _ ho]

/-- Two adjacent stores are one. -/
theorem storeBytes_append {m : Mem O} {p : Ptr O} {a b : List UInt8}
    (h : p.off + a.length + b.length ≤ (m p.obj).length) :
    storeBytes (setObj m p.obj (splice (m p.obj) p.off a)) (p.add a.length) b
      = some (setObj m p.obj (splice (m p.obj) p.off (a ++ b))) := by
  have hla : (splice (m p.obj) p.off a).length = (m p.obj).length := splice_length (by omega)
  rw [storeBytes_eq (by simp only [Ptr.add_obj, Ptr.add_off, setObj_self, hla]; omega)]
  simp only [Ptr.add_obj, Ptr.add_off, setObj_self, setObj_setObj]
  rw [splice_splice_append h]

end Store

/-- A load of no bytes needs the pointer only to lie within its object. -/
theorem loadBytes_eq_some {m : Mem O} {p : Ptr O} {n : Nat} {w : List UInt8} :
    loadBytes m p n = some w ↔
      p.off + n ≤ (m p.obj).length ∧ slice (m p.obj) p.off n = w := by
  rw [loadBytes]
  split
  · next h => simp [h]
  · next h => simp [h]

theorem loadBytes_length {m : Mem O} {p : Ptr O} {n : Nat} {w : List UInt8}
    (h : loadBytes m p n = some w) : w.length = n := by
  obtain ⟨hfit, rfl⟩ := loadBytes_eq_some.mp h
  exact slice_length hfit

/-- A single load is the first byte of the window behind the pointer. -/
theorem load_of_slice {m : Mem O} {o : O} {off n : Nat} {b : UInt8} {bs : List UInt8}
    (h : slice (m o) off n = b :: bs) : load m ⟨o, off⟩ = some b :=
  getElem?_of_slice_eq_cons h

end Gateway.Lib.BlockMem
