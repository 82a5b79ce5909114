import Mathlib.Tactic

/-!
Bytes on a serial line, least significant bit first.

`shiftIn` is one step of the receiver's shift register: the new bit enters at
the top, so after eight bits the register holds the byte.
-/

namespace LtcOs.Bits

/-- The bits of a byte in the order they are sent. -/
def byteBits (b : UInt8) : List Bool := (List.range 8).map fun i => b.toNat.testBit i

def bytesBits (bs : List UInt8) : List Bool := bs.flatMap byteBits

/-- One bit enters the shift register. -/
def shiftIn (c : UInt8) (bit : Bool) : UInt8 := (c >>> 1) ||| (if bit then 0x80 else 0)

/-- The shift register after the bits of one byte so far. -/
def pack (ks : List Bool) : UInt8 := ks.foldl shiftIn 0

theorem pack_append (ks : List Bool) (bit : Bool) : pack (ks ++ [bit]) = shiftIn (pack ks) bit := by
  rw [pack, List.foldl_append]
  rfl

@[simp] theorem length_byteBits (b : UInt8) : (byteBits b).length = 8 := by simp [byteBits]

@[simp] theorem bytesBits_nil : bytesBits [] = [] := rfl

@[simp] theorem bytesBits_cons (b : UInt8) (bs : List UInt8) :
    bytesBits (b :: bs) = byteBits b ++ bytesBits bs := rfl

theorem bytesBits_append (bs cs : List UInt8) :
    bytesBits (bs ++ cs) = bytesBits bs ++ bytesBits cs := List.flatMap_append

theorem length_bytesBits (bs : List UInt8) : (bytesBits bs).length = 8 * bs.length := by
  induction bs with
  | nil => rfl
  | cons b bs ih =>
      rw [bytesBits_cons, List.length_append, ih, length_byteBits, List.length_cons]
      omega

/-- Eight bits make the byte they are the bits of. -/
theorem byteBits_pack {ks : List Bool} (h : ks.length = 8) : byteBits (pack ks) = ks := by
  obtain ⟨b₀, b₁, b₂, b₃, b₄, b₅, b₆, b₇, rfl⟩ :
      ∃ b₀ b₁ b₂ b₃ b₄ b₅ b₆ b₇, ks = [b₀, b₁, b₂, b₃, b₄, b₅, b₆, b₇] := by
    rcases ks with _ | ⟨b₀,
      _ | ⟨b₁, _ | ⟨b₂, _ | ⟨b₃, _ | ⟨b₄, _ | ⟨b₅, _ | ⟨b₆, _ | ⟨b₇, _ | _⟩⟩⟩⟩⟩⟩⟩⟩
    all_goals simp at h
    exact ⟨b₀, b₁, b₂, b₃, b₄, b₅, b₆, b₇, rfl⟩
  revert b₀ b₁ b₂ b₃ b₄ b₅ b₆ b₇
  decide +kernel

theorem pack_byteBits (b : UInt8) : pack (byteBits b) = b := by
  have all : ∀ n, n < 256 → pack (byteBits (UInt8.ofNat n)) = UInt8.ofNat n := by decide +kernel
  have := all b.toNat b.toNat_lt
  rwa [UInt8.ofNat_toNat] at this

end LtcOs.Bits
