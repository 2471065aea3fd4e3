/-
  Gateway.Lib.ByteBits

  The bit fields of a byte and of a big-endian pair of bytes, as arithmetic on
  their values: what the masks and shifts of C code read and write.

  A statement about one byte is checked on all 256 values.
-/

import Mathlib.Data.Fin.Basic
import Mathlib.Tactic.Linarith

namespace Gateway.Lib.ByteBits

/-- A property of all bytes, from a check of the 256 values. -/
theorem forall_byte {P : UInt8 → Prop} (h : ∀ i : Fin 256, P (UInt8.ofNat i.val)) (b : UInt8) :
    P b := by
  have hb := h ⟨b.toNat, b.toNat_lt⟩
  rwa [UInt8.ofNat_toNat] at hb

/-! ## Reading a field -/

theorem toNat_highNibble (b : UInt8) : ((b &&& 0xF0) >>> 4).toNat = b.toNat / 16 :=
  @forall_byte (fun b => ((b &&& 0xF0) >>> 4).toNat = b.toNat / 16) (by decide +kernel) b

theorem toNat_lowNibble (b : UInt8) : (b &&& 0x0F).toNat = b.toNat % 16 :=
  @forall_byte (fun b => (b &&& 0x0F).toNat = b.toNat % 16) (by decide +kernel) b

theorem toNat_shiftRight4 (b : UInt8) : (b >>> 4).toNat = b.toNat / 16 :=
  @forall_byte (fun b => (b >>> 4).toNat = b.toNat / 16) (by decide +kernel) b

theorem toNat_top2 (b : UInt8) : ((b &&& 0xC0) >>> 6).toNat = b.toNat / 64 :=
  @forall_byte (fun b => ((b &&& 0xC0) >>> 6).toNat = b.toNat / 64) (by decide +kernel) b

theorem toNat_bits45 (b : UInt8) : ((b &&& 0x30) >>> 4).toNat = b.toNat / 16 % 4 :=
  @forall_byte (fun b => ((b &&& 0x30) >>> 4).toNat = b.toNat / 16 % 4) (by decide +kernel) b

theorem toNat_shiftRight6 (b : UInt8) : (b >>> 6).toNat = b.toNat / 64 :=
  @forall_byte (fun b => (b >>> 6).toNat = b.toNat / 64) (by decide +kernel) b

theorem toNat_low2_shiftRight4 (b : UInt8) : ((b >>> 4) &&& 0x03).toNat = b.toNat / 16 % 4 :=
  @forall_byte (fun b => ((b >>> 4) &&& 0x03).toNat = b.toNat / 16 % 4) (by decide +kernel) b

/-- A big-endian pair of bytes, with `k` added, in 16 bits. -/
theorem bigEndian_add (b c : UInt8) (k : Nat) :
    (b.toUInt16 <<< 8 ||| c.toUInt16) + UInt16.ofNat k
      = UInt16.ofNat (b.toNat * 256 + c.toNat + k) := by
  have hb := b.toNat_lt
  have hc := c.toNat_lt
  apply UInt16.toNat_inj.mp
  have hshl : (b.toUInt16 <<< 8).toNat = 2 ^ 8 * b.toNat := by
    rw [UInt16.toNat_shiftLeft, UInt8.toNat_toUInt16, Nat.shiftLeft_eq]
    simp
    omega
  have hor : (b.toUInt16 <<< 8 ||| c.toUInt16).toNat = b.toNat * 256 + c.toNat := by
    rw [UInt16.toNat_or, hshl, UInt8.toNat_toUInt16, ← Nat.two_pow_add_eq_or_of_lt hc]
    omega
  rw [UInt16.toNat_add, hor, UInt16.toNat_ofNat', UInt16.toNat_ofNat', Nat.add_mod_mod]

/-- The same with the low byte added instead of or-ed. -/
theorem bigEndian_add_eq (b c : UInt8) (k : Nat) :
    (b.toUInt16 <<< 8) + c.toUInt16 + UInt16.ofNat k
      = UInt16.ofNat (b.toNat * 256 + c.toNat + k) := by
  have hb := b.toNat_lt
  apply UInt16.toNat_inj.mp
  have hshl : (b.toUInt16 <<< 8).toNat = b.toNat * 256 := by
    rw [UInt16.toNat_shiftLeft, UInt8.toNat_toUInt16, Nat.shiftLeft_eq]
    simp
    omega
  rw [UInt16.toNat_add, UInt16.toNat_add, hshl, UInt8.toNat_toUInt16, UInt16.toNat_ofNat',
    UInt16.toNat_ofNat', Nat.add_mod_mod, Nat.mod_add_mod]

/-- A byte, with `k` added, in 16 bits. -/
theorem toUInt16_add (b : UInt8) (k : Nat) :
    b.toUInt16 + UInt16.ofNat k = UInt16.ofNat (b.toNat + k) := by
  apply UInt16.toNat_inj.mp
  rw [UInt16.toNat_add, UInt8.toNat_toUInt16, UInt16.toNat_ofNat', UInt16.toNat_ofNat',
    Nat.add_mod_mod]

/-- A sum in 16 bits, cut down to 8 bits. -/
theorem ofNat_add_toUInt8 (a b : Nat) :
    (UInt16.ofNat a + UInt16.ofNat b).toUInt8 = UInt8.ofNat (a + b) := by
  apply UInt8.toNat_inj.mp
  rw [UInt16.toNat_toUInt8, UInt16.toNat_add, UInt16.toNat_ofNat', UInt16.toNat_ofNat',
    UInt8.toNat_ofNat']
  omega

theorem ofNat_add_ofNat (a b : Nat) :
    UInt16.ofNat a + UInt16.ofNat b = UInt16.ofNat (a + b) := by
  apply UInt16.toNat_inj.mp
  rw [UInt16.toNat_add, UInt16.toNat_ofNat', UInt16.toNat_ofNat', UInt16.toNat_ofNat']
  omega

end Gateway.Lib.ByteBits
