import LtcOs.Lib.Memory
import LtcOs.Lib.Request

/-!
`MurmurHash3_x86_32` of `murmur3.c`.

The hash reads its key through a pointer, once from the packet buffer and once
from flash, so the code takes the two reads as programs. `murmur` is the
instance whose reads issue no request: the bytes are simply there.
-/

namespace LtcOs.Murmur3

open LtcOs.Memory LtcOs.Request

def rotl32 (x r : UInt32) : UInt32 := (x <<< r) ||| (x >>> (32 - r))

def fmix32 (h : UInt32) : UInt32 :=
  let h := h ^^^ (h >>> 16)
  let h := h * 0x85ebca6b
  let h := h ^^^ (h >>> 13)
  let h := h * 0xc2b2ae35
  h ^^^ (h >>> 16)

def c1 : UInt32 := 0xcc9e2d51

def c2 : UInt32 := 0x1b873593

def mixKey (k1 : UInt32) : UInt32 := rotl32 (k1 * c1) 15 * c2

def mixBlock (h1 k1 : UInt32) : UInt32 := rotl32 (h1 ^^^ mixKey k1) 13 * 5 + 0xe6546b64

section Code

variable {ι : Type} {ο : ι → Type}

/-- The tail switch on `len & 3`, whose cases fall through. -/
def tail (byte : Int → Prog ι ο UInt8) (start : Int) (rem : Nat) (h1 : UInt32) :
    Prog ι ο UInt32 := do
  let k1 ← (if rem = 3 then byte (start + 2) >>= fun b => .ret (b.toUInt32 <<< 16) else .ret 0)
  let k1 ← (if 2 ≤ rem then byte (start + 1) >>= fun b => .ret (k1 ^^^ (b.toUInt32 <<< 8))
    else .ret k1)
  if 1 ≤ rem then byte start >>= fun b => .ret (h1 ^^^ mixKey (k1 ^^^ b.toUInt32))
  else .ret h1

/-- `len` is a C `int`: the quotient truncates, and the block loop, which counts
an `int` up to zero, runs `nblocks` times modulo `2^32`. -/
def MurmurHash3_x86_32 (block : Nat → Prog ι ο UInt32) (byte : Int → Prog ι ο UInt8) (len : Int)
    (seed : UInt32) : Prog ι ο UInt32 := do
  let nblocks := len.tdiv 4
  let h1 ← Prog.fold block mixBlock (UInt32.ofInt nblocks).toNat 0 seed
  let h1 ← tail byte (nblocks * 4) (len % 4).toNat h1
  return fmix32 (h1 ^^^ UInt32.ofInt len)

end Code

/-- The C conversion of a `uint32_t` argument to `int`. -/
def toInt (x : UInt32) : Int := x.toBitVec.toInt

/-- No request is needed to read bytes that are already there. -/
abbrev Given (α : Type) := Prog Empty (fun _ => Unit) α

/-- The hash of a key whose words are `f` and whose bytes are `g`. -/
def hashOf (f : Nat → UInt32) (g : Int → UInt8) (len : Int) (seed : UInt32) : UInt32 :=
  (MurmurHash3_x86_32 (fun k => (.ret (f k) : Given UInt32)) (fun j => .ret (g j)) len seed).value

/-- The hash of the first `len` bytes of `data`. -/
def murmur (data : Mem) (len seed : UInt32) : UInt32 :=
  hashOf (fun k => word data (4 * k)) (fun j => data j.toNat) (toInt len) seed

theorem toInt_of_lt {x : UInt32} (h : x.toNat < 2147483648) : toInt x = x.toNat := by
  rw [toInt, BitVec.toInt_eq_toNat_of_lt (by simpa using by omega)]
  rfl

/-! ### The hash is a function of what it reads

The same rule serves a hash over flash, whose reads are requests, and a hash
over given bytes, so it also says which bytes the value depends on. -/

section Safe

variable {ι : Type} {ο : ι → Type} {σ : Type} {H : Handler ι ο σ} {I : σ → Prop}
  {E : ι → σ → Prop} {s : σ} {h1 : UInt32}

/-- Reading the key is all that the hash does. -/
theorem preserves_MurmurHash3 {block : Nat → Prog ι ο UInt32} {byte : Int → Prog ι ο UInt8}
    (blocks : ∀ k, (block k).Preserves H I E) (bytes : ∀ j, (byte j).Preserves H I E) (len : Int)
    (seed : UInt32) : (MurmurHash3_x86_32 block byte len seed).Preserves H I E := by
  have byteThen : ∀ {α : Type} (j : Int) (f : UInt8 → α),
      (byte j >>= fun b => .ret (f b)).Preserves H I E :=
    fun j f => (bytes j).bind fun b => Prog.preserves_ret (f b)
  refine (Prog.preserves_fold blocks _ _ _).bind fun h1 => Prog.Preserves.bind ?_ fun h1 =>
    Prog.preserves_ret _
  unfold tail
  refine ((byteThen _ _).ite (Prog.preserves_ret _)).bind fun k1 => ?_
  refine ((byteThen _ _).ite (Prog.preserves_ret _)).bind fun k1 => ?_
  exact (byteThen _ _).ite (Prog.preserves_ret _)

theorem safe_tail {byte : Int → Prog ι ο UInt8} {g : Int → UInt8} {start : Int} {rem : Nat}
    (le : rem ≤ 3)
    (reads : ∀ j : Nat, j < rem →
      (byte (start + j)).Safe H I E (fun v s' => v = g (start + j) ∧ s = s') s) :
    (tail byte start rem h1).Safe H I E
      (fun v s' => v = (tail (fun j => (.ret (g j) : Given UInt8)) start rem h1).value ∧ s = s')
      s := by
  have read : ∀ {α : Type} (j : Nat) (k : UInt8 → Prog ι ο α) (Q : α → σ → Prop), j < rem →
      (k (g (start + j))).Safe H I E Q s → (byte (start + j) >>= k).Safe H I E Q s := by
    intro α j k Q hj hk
    refine (reads j hj).bind fun v s' hv => ?_
    obtain ⟨rfl, rfl⟩ := hv
    exact hk
  unfold tail
  obtain rfl | rfl | rfl | rfl : rem = 0 ∨ rem = 1 ∨ rem = 2 ∨ rem = 3 := by omega
  · exact ⟨rfl, rfl⟩
  · simpa using read 0 _ _ (by omega) (by simp)
  · simpa [Prog.bind_assoc] using read 1 _ _ (by omega)
      (by simpa using read 0 _ _ (by omega) (by simp))
  · simpa [Prog.bind_assoc] using read 2 _ _ (by omega)
      (by simpa using read 1 _ _ (by omega) (by simpa using read 0 _ _ (by omega) (by simp)))

/-- A tail is read from its last byte on. -/
theorem safe_last_of_tail {byte : Int → Prog ι ο UInt8} {start : Int} {rem : Nat} {h1 : UInt32}
    {Q : UInt32 → σ → Prop} (pos : 1 ≤ rem) (le : rem ≤ 3)
    (h : (tail byte start rem h1).Safe H I E Q s) :
    (byte (start + (rem - 1 : Nat))).Safe H I E (fun _ _ => True) s := by
  unfold tail at h
  obtain rfl | rfl | rfl : rem = 1 ∨ rem = 2 ∨ rem = 3 := by omega
  · have last := (h.right rfl).right rfl
    rw [if_pos (by omega)] at last
    simpa using last.left
  · have last := h.right rfl
    rw [if_pos (by omega)] at last
    exact last.left.left
  · rw [if_pos rfl] at h
    exact h.left.left

theorem safe_murmur {block : Nat → Prog ι ο UInt32} {byte : Int → Prog ι ο UInt8}
    {f : Nat → UInt32} {g : Int → UInt8} {len : Int} {seed : UInt32}
    (blocks : ∀ k, k < (UInt32.ofInt (len.tdiv 4)).toNat →
      (block k).Safe H I E (fun v s' => v = f k ∧ s = s') s)
    (bytes : ∀ j : Nat, j < (len % 4).toNat →
      (byte (len.tdiv 4 * 4 + j)).Safe H I E (fun v s' => v = g (len.tdiv 4 * 4 + j) ∧ s = s') s) :
    (MurmurHash3_x86_32 block byte len seed).Safe H I E
      (fun v s' => v = hashOf f g len seed ∧ s = s') s := by
  unfold MurmurHash3_x86_32 hashOf
  refine (Prog.safe_fold fun k _ hk => blocks k (by omega)).bind fun v s' hv => ?_
  obtain ⟨rfl, rfl⟩ := hv
  refine (safe_tail (by omega) bytes).bind fun w s'' hw => ?_
  obtain ⟨rfl, rfl⟩ := hw
  simp only [MurmurHash3_x86_32, Prog.value_bind, Prog.value_fold, Prog.pure_eq, Prog.safe_ret,
    Prog.value_ret, and_self]

end Safe

/-- The environment of a program without requests. -/
def noHandler : Handler Empty (fun _ => Unit) Unit := fun i _ => i.elim

theorem hashOf_congr {f f' : Nat → UInt32} {g g' : Int → UInt8} {len : Int} {seed : UInt32}
    (blocks : ∀ k, k < (UInt32.ofInt (len.tdiv 4)).toNat → f k = f' k)
    (bytes : ∀ j : Nat, j < (len % 4).toNat → g (len.tdiv 4 * 4 + j) = g' (len.tdiv 4 * 4 + j)) :
    hashOf f g len seed = hashOf f' g' len seed := by
  have safe : (MurmurHash3_x86_32 (fun k => (.ret (f k) : Given UInt32)) (fun j => .ret (g j)) len
      seed).Safe noHandler (fun _ => True) (fun _ _ => True)
      (fun v s' => v = hashOf f' g' len seed ∧ () = s') () :=
    safe_murmur (fun k hk => ⟨blocks k hk, rfl⟩) (fun j hj => ⟨bytes j hj, rfl⟩)
  exact (safe.run (Prog.run_value _ _)).1

theorem nblocks_eq (n : Nat) : (n : Int).tdiv 4 = (n / 4 : Nat) := by
  rw [Int.tdiv_eq_ediv_of_nonneg (by omega)]
  rfl

theorem toNat_nblocks {n : Nat} (small : n < 2147483648) :
    (UInt32.ofInt ((n : Int).tdiv 4)).toNat = n / 4 := by
  rw [nblocks_eq, UInt32.ofInt, UInt32.toNat_ofNat']
  omega

/-- Memories that agree on the first `len` bytes have the same hash. -/
theorem murmur_congr {data data' : Mem} {len seed : UInt32} (small : len.toNat < 2147483648)
    (h : ∀ j, j < len.toNat → data j = data' j) : murmur data len seed = murmur data' len seed := by
  unfold murmur
  rw [toInt_of_lt small]
  refine hashOf_congr (fun k hk => word_congr fun j hj => h _ ?_) (fun j hj => h _ ?_)
  · rw [toNat_nblocks small] at hk
    omega
  · rw [nblocks_eq]
    omega

end LtcOs.Murmur3
