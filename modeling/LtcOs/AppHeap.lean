import LtcOs.Kernel.Heap
import LtcOs.Lib.Memory

/-!
`malloc`, `free` and `realloc` of the application, over the heap `app_heap`.

The state adds to the headers the pointers the allocator has handed out and not taken
back. A live block is one of the blocks of the layout of the heap; a request changes the
contents of no live block, and serves what it is asked for unless the rounding of the
size overflows.
-/

namespace LtcOs.AppHeap

open LtcOs.Heap LtcOs.Linked LtcOs.Memory

/-! ### The code -/

/-- The heap, and the pointers that are live. -/
structure App where
  heap : Headers
  live : List Nat

/-- `hp->h.size` of the block at a pointer. -/
def capacity (h : Headers) (p : Nat) : Nat := h.size (p - headerSize)

/-- The byte at an address; the two words of a unit of eight bytes are `link` and `size`. -/
def byteAt (h : Headers) (x : Nat) : UInt8 :=
  let u := x / 8 * 8
  byteOf (UInt32.ofNat (if x % 8 < 4 then h.link u else h.size u)) (x % 4)

/-- `memcpy` between units. -/
def memcpy (h : Headers) (dst src n : Nat) : Headers where
  link a := if dst ≤ a ∧ a < dst + n then h.link (a - dst + src) else h.link a
  size a := if dst ≤ a ∧ a < dst + n then h.size (a - dst + src) else h.size a

/-- `chHeapAlloc(&app_heap, size)`. -/
def alloc (A : Arena) (s : App) (fuel : Nat) (size : UInt32) : Option (Nat × App) := do
  let (p, heap) ← chHeapAlloc A s.heap fuel size.toNat
  some (p, ⟨heap, if p = 0 then s.live else p :: s.live⟩)

/-- `chHeapFree(p)`. -/
def release (s : App) (fuel p : Nat) : Option App := do
  let heap ← chHeapFree s.heap fuel p
  some ⟨heap, s.live.erase p⟩

def malloc (A : Arena) (s : App) (fuel : Nat) (size : UInt32) : Option (Nat × App) :=
  alloc A s fuel size

def free (s : App) (fuel p : Nat) : Option App :=
  if p ≠ 0 then release s fuel p else some s

/-- The rounding of `realloc`. From `2^31` on the product exceeds `INT_MAX` and wraps. -/
def newSize (size : UInt32) : UInt32 :=
  if size % 8 = 0 then size else size / 8 * 8 + 8

def realloc (A : Arena) (s : App) (fuel addr : Nat) (size : UInt32) : Option (Nat × App) :=
  if addr = 0 then alloc A s fuel size
  else
    let prev_size := capacity s.heap addr
    if (newSize size).toNat ≤ prev_size then some (addr, s)
    else do
      let (ptr, s) ← alloc A s fuel size
      if ptr = 0 then some (0, s)
      else
        let s ← release { s with heap := memcpy s.heap ptr addr prev_size } fuel addr
        some (ptr, s)

/-- Requests of any size, releases, and whatever is written to the contents of a live block. -/
inductive Step (A : Arena) : App → App → Prop where
  | malloc {s s' : App} {q : Nat} (fuel : Nat) (size : UInt32)
      (result : malloc A s fuel size = some (q, s')) : Step A s s'
  | free {s s' : App} (fuel p : Nat) (allowed : p = 0 ∨ p ∈ s.live)
      (result : free s fuel p = some s') : Step A s s'
  | realloc {s s' : App} {q : Nat} (fuel p : Nat) (size : UInt32) (allowed : p = 0 ∨ p ∈ s.live)
      (result : realloc A s fuel p size = some (q, s')) : Step A s s'
  | write {s : App} (p a u v : Nat) (mem : p ∈ s.live) (aligned : 8 ∣ a)
      (inside : p ≤ a ∧ a < p + capacity s.heap p) :
      Step A s { s with heap := (s.heap.setLink a u).setSize a v }

def Reachable (A : Arena) (s : App) : Prop :=
  ∃ h, Relation.ReflTransGen (Step A) ⟨chHeapObjectInit A h, []⟩ s

/-! ### Requests -/

inductive Request where
  | malloc (size : UInt32)
  | realloc (p : Nat) (size : UInt32)

namespace Request

def size : Request → UInt32
  | .malloc size => size
  | .realloc _ size => size

/-- The block a request gives up, zero for none. -/
def old : Request → Nat
  | .malloc _ => 0
  | .realloc p _ => p

def run (A : Arena) (s : App) (fuel : Nat) : Request → Option (Nat × App)
  | .malloc size => AppHeap.malloc A s fuel size
  | .realloc p size => AppHeap.realloc A s fuel p size

/-- The pointer passed is `NULL` or live. -/
def Allowed (s : App) (r : Request) : Prop := r.old = 0 ∨ r.old ∈ s.live

end Request

/-- The blocks at `p` and `q` share no byte. -/
def Disjoint (h : Headers) (p q : Nat) : Prop :=
  p + capacity h p ≤ q ∨ q + capacity h q ≤ p

/-- A request for `size` bytes that gives up `p` is served by the block `q`. -/
structure Served (s : App) (p size q : Nat) (s' : App) : Prop where
  live : q ∈ s'.live
  large : size ≤ capacity s'.heap q
  disjoint : ∀ r ∈ s'.live, r ≠ q → Disjoint s'.heap q r
  others : ∀ r ∈ s.live, r ≠ p → r ≠ q ∧ r ∈ s'.live ∧ capacity s'.heap r = capacity s.heap r ∧
    ∀ i, i < capacity s.heap r → byteAt s'.heap (r + i) = byteAt s.heap (r + i)
  preserved : p ≠ 0 → ∀ i, i < min (capacity s.heap p) size →
    byteAt s'.heap (q + i) = byteAt s.heap (p + i)
  moved : p ≠ 0 → q ≠ p → p ∉ s'.live

/-- The request returns; it fails and changes nothing, or it is served. -/
def Request.Meets (A : Arena) (s : App) (r : Request) : Prop :=
  (∃ k, ∀ fuel, k < fuel → (r.run A s fuel).isSome) ∧
  ∀ fuel q s', r.run A s fuel = some (q, s') →
    (q = 0 ∧ s' = s) ∨ Served s r.old r.size.toNat q s'

/-- The size can be rounded up, or no block is free and none is given up. -/
def Request.Fits (A : Arena) (s : App) (r : Request) : Prop :=
  r.size.toNat ≤ 4294967288 ∨ (r.old = 0 ∧ s.heap.link A.h_free = 0)

/-! ### Contents -/

section Contents

variable {A : Arena} {h h' : Headers} {b c : Block} {bs xs ys : List Block}

/-- The units inside a block are as they were. -/
def Kept (h h' : Headers) (b : Block) : Prop :=
  ∀ a, b.addr + headerSize ≤ a → a < b.addr + headerSize + b.size →
    h'.link a = h.link a ∧ h'.size a = h.size a

theorem Kept.trans {h'' : Headers} (first : Kept h h' b) (second : Kept h' h'' b) :
    Kept h h'' b := by
  intro a lo hi
  obtain ⟨link, size⟩ := first a lo hi
  obtain ⟨link', size'⟩ := second a lo hi
  exact ⟨link'.trans link, size'.trans size⟩

/-- Equal units have equal bytes. -/
theorem byteAt_congr {p q i : Nat} (aligned_p : 8 ∣ p) (aligned_q : 8 ∣ q)
    (link : h'.link (q + i / 8 * 8) = h.link (p + i / 8 * 8))
    (size : h'.size (q + i / 8 * 8) = h.size (p + i / 8 * 8)) :
    byteAt h' (q + i) = byteAt h (p + i) := by
  have unit_p : (p + i) / 8 * 8 = p + i / 8 * 8 := by omega
  have unit_q : (q + i) / 8 * 8 = q + i / 8 * 8 := by omega
  have offset : (q + i) % 8 = (p + i) % 8 := by omega
  have byte : (q + i) % 4 = (p + i) % 4 := by omega
  unfold byteAt
  simp only [unit_p, unit_q, offset, byte, link, size]

theorem Kept.byteAt (kept : Kept h h' b) (aligned : 8 ∣ b.addr) {i : Nat} (lt : i < b.size) :
    byteAt h' (b.addr + headerSize + i) = byteAt h (b.addr + headerSize + i) := by
  have unit : 8 ∣ b.addr + headerSize := by
    unfold headerSize
    omega
  obtain ⟨link, size⟩ := kept (b.addr + headerSize + i / 8 * 8) (by omega) (by omega)
  exact byteAt_congr unit unit link size

theorem aligned_of_tiled {lo hi : Nat} (tiled : Tiled hi lo bs) (aligned : 8 ∣ lo)
    (mem : b ∈ bs) : 8 ∣ b.addr := by
  induction bs generalizing lo with
  | nil => exact absurd mem (by simp)
  | cons c bs ih =>
      obtain ⟨addr, div, rest⟩ := tiled
      rcases List.mem_cons.mp mem with rfl | mem
      · rw [addr]
        exact aligned
      · apply ih rest _ mem
        unfold headerSize
        omega

theorem aligned_of_layout (layout : Layout A h bs) (mem : b ∈ bs) : 8 ∣ b.addr :=
  aligned_of_tiled layout.tiled A.base_aligned mem

theorem capacity_of_layout (layout : Layout A h bs) (mem : b ∈ bs) :
    capacity h (b.addr + headerSize) = b.size := layout.sizes b mem

theorem takeBlock_frame {qp hp n a : Nat} (ne_qp : a ≠ qp) (ne_hp : a ≠ hp)
    (ne_fp : a ≠ hp + headerSize + n) :
    (takeBlock A h qp hp n).link a = h.link a ∧ (takeBlock A h qp hp n).size a = h.size a := by
  unfold takeBlock
  split_ifs <;> simp [Headers.setLink, Headers.setSize, ne_qp, ne_hp, ne_fp]

theorem insertAfter_frame {qp hp a : Nat} (ne_qp : a ≠ qp) (ne_hp : a ≠ hp) :
    (insertAfter h qp hp).link a = h.link a ∧ (insertAfter h qp hp).size a = h.size a := by
  unfold insertAfter
  simp only
  split_ifs <;> simp [Headers.setLink, Headers.setSize, ne_qp, ne_hp]

/-- The last free block before another is a header of the layout. -/
theorem lastOf_header (sub : ∀ d ∈ xs, d ∈ bs) :
    lastOf A.h_free (freeList xs) = A.h_free ∨
      ∃ d ∈ bs, d.addr = lastOf A.h_free (freeList xs) := by
  rcases List.mem_cons.mp (lastOf_mem A.h_free (freeList xs)) with head | mem
  · exact .inl head
  · obtain ⟨d, hd, -, eq⟩ := mem_freeList.mp mem
    exact .inr ⟨d, sub d hd, eq⟩

/-- An allocation writes to headers and into the block it cuts. -/
theorem kept_takeBlock {n : Nat} (layout : Layout A h (xs ++ b :: ys)) (le : n ≤ b.size)
    (mem : c ∈ xs ∨ c ∈ ys) :
    Kept h (takeBlock A h (lastOf A.h_free (freeList xs)) b.addr n) c := by
  intro a lo hi
  have mem' : c ∈ xs ++ b :: ys := by
    simp only [List.mem_append, List.mem_cons]
    tauto
  apply takeBlock_frame
  · rintro rfl
    exact layout.header_outside mem' (lastOf_header fun d hd => by simp [hd]) ⟨lo, hi⟩
  · rintro rfl
    exact layout.header_outside mem' (.inr ⟨b, by simp, rfl⟩) ⟨lo, hi⟩
  · rcases mem with mem | mem
    · have := layout.before mem
      unfold headerSize at *
      omega
    · have := layout.after mem
      unfold headerSize at *
      omega

/-- A release writes to headers only. -/
theorem kept_insertAfter (layout : Layout A h (xs ++ b :: ys)) (mem : c ∈ xs ++ b :: ys) :
    Kept h (insertAfter h (lastOf A.h_free (freeList xs)) b.addr) c := by
  intro a lo hi
  apply insertAfter_frame
  · rintro rfl
    exact layout.header_outside mem (lastOf_header fun d hd => by simp [hd]) ⟨lo, hi⟩
  · rintro rfl
    exact layout.header_outside mem (.inr ⟨b, by simp, rfl⟩) ⟨lo, hi⟩

end Contents

/-! ### The allocator -/

section Allocator

variable {A : Arena} {s s' : App} {b c : Block} {bs xs ys : List Block}

/-- The live pointers are those of the blocks that are not free. -/
structure Inv (A : Arena) (s : App) (bs : List Block) : Prop extends Layout A s.heap bs where
  known : ∀ p, p ∈ s.live ↔ ∃ b ∈ bs, b.free = false ∧ b.addr + headerSize = p
  distinct : s.live.Nodup

/-- The block `b` has joined the live ones. -/
structure Granted (A : Arena) (s s' : App) (bs cs : List Block) (b : Block) : Prop where
  inv : Inv A s' cs
  mem : b ∈ cs
  live : b.free = false
  fresh : b.addr + headerSize ∉ s.live
  pointers : s'.live = (b.addr + headerSize) :: s.live
  others : ∀ c ∈ bs, c.free = false → c ∈ cs ∧ Kept s.heap s'.heap c

/-- The block `b` has left the live ones. -/
structure Released (A : Arena) (s s' : App) (bs cs : List Block) (b : Block) : Prop where
  inv : Inv A s' cs
  pointers : s'.live = s.live.erase (b.addr + headerSize)
  others : ∀ c ∈ bs, c.free = false → c ≠ b → c ∈ cs ∧ Kept s.heap s'.heap c

theorem alloc_eq_some {fuel q : Nat} {size : UInt32} :
    alloc A s fuel size = some (q, s') ↔
      ∃ heap, chHeapAlloc A s.heap fuel size.toNat = some (q, heap) ∧
        s' = ⟨heap, if q = 0 then s.live else q :: s.live⟩ := by
  unfold alloc
  cases chHeapAlloc A s.heap fuel size.toNat with
  | none => simp
  | some r =>
      simp only [Option.bind_eq_bind, Option.bind_some, Option.some.injEq, Prod.ext_iff]
      constructor
      · rintro ⟨rfl, rfl⟩
        exact ⟨_, ⟨rfl, rfl⟩, rfl⟩
      · rintro ⟨heap, ⟨rfl, rfl⟩, rfl⟩
        exact ⟨rfl, rfl⟩

theorem release_eq_some {fuel p : Nat} :
    release s fuel p = some s' ↔
      ∃ heap, chHeapFree s.heap fuel p = some heap ∧ s' = ⟨heap, s.live.erase p⟩ := by
  unfold release
  cases chHeapFree s.heap fuel p with
  | none => simp
  | some heap => simp [eq_comm]

theorem alloc_mono {k m q : Nat} {size : UInt32} (le : k ≤ m)
    (result : alloc A s k size = some (q, s')) : alloc A s m size = some (q, s') := by
  obtain ⟨heap, result, eq⟩ := alloc_eq_some.mp result
  exact alloc_eq_some.mpr ⟨heap, allocLoop_mono le result, eq⟩

theorem release_mono {k m p : Nat} (le : k ≤ m) (result : release s k p = some s') :
    release s m p = some s' := by
  obtain ⟨heap, result, eq⟩ := release_eq_some.mp result
  exact release_eq_some.mpr ⟨heap, freeLoop_mono le result, eq⟩

theorem alloc_returns (inv : Inv A s bs) {fuel : Nat} (enough : bs.length < fuel) (size : UInt32) :
    ∃ q s', alloc A s fuel size = some (q, s') := by
  obtain ⟨q, heap, result, -⟩ := inv.alloc enough size.toNat
  exact ⟨q, _, alloc_eq_some.mpr ⟨heap, result, rfl⟩⟩

theorem release_returns (inv : Inv A s bs) (mem : b ∈ bs) (live : b.free = false) {fuel : Nat}
    (enough : bs.length < fuel) : ∃ s', release s fuel (b.addr + headerSize) = some s' := by
  obtain ⟨heap, -, result, -⟩ := layout_chHeapFree inv.toLayout mem live enough
  exact ⟨_, release_eq_some.mpr ⟨heap, result, rfl⟩⟩

/-- What the search left of the block is live, and the other blocks are the same. -/
theorem inv_grant {n m : Nat} {heap : Headers} (inv : Inv A s (xs ++ b :: ys))
    (free : b.free = true) (layout : Layout A heap (xs ++ split b n ++ ys))
    (here : (⟨b.addr, m, false⟩ : Block) ∈ split b n)
    (only : ∀ c ∈ split b n, c.free = false → c = ⟨b.addr, m, false⟩) :
    b.addr + headerSize ∉ s.live ∧
      Inv A ⟨heap, (b.addr + headerSize) :: s.live⟩ (xs ++ split b n ++ ys) := by
  have fresh : b.addr + headerSize ∉ s.live := by
    intro mem
    obtain ⟨c, hc, live, eq⟩ := (inv.known _).mp mem
    have here : b ∈ xs ++ b :: ys := by simp
    exact ne_of_live live free
      (List.inj_on_of_nodup_map inv.tiled.nodup hc here (Nat.add_right_cancel eq))
  refine ⟨fresh, layout, ?_, List.nodup_cons.mpr ⟨fresh, inv.distinct⟩⟩
  intro p
  rw [List.mem_cons, inv.known]
  constructor
  · rintro (rfl | ⟨c, hc, live, rfl⟩)
    · exact ⟨⟨b.addr, m, false⟩, by simp [here], rfl, rfl⟩
    · have side := mem_sides hc (ne_of_live live free)
      refine ⟨c, ?_, live, rfl⟩
      simp only [List.mem_append]
      tauto
  · rintro ⟨c, hc, live, rfl⟩
    simp only [List.mem_append] at hc
    rcases hc with (hc | hc) | hc
    · exact .inr ⟨c, by simp [hc], live, rfl⟩
    · exact .inl (by rw [only c hc live])
    · exact .inr ⟨c, by simp [hc], live, rfl⟩

/-- An allocation fails for want of a large enough block, or grants a new one. -/
theorem alloc_cases {fuel q : Nat} {size : UInt32} (inv : Inv A s bs)
    (result : alloc A s fuel size = some (q, s')) :
    (q = 0 ∧ s' = s ∧ ∀ b ∈ bs, b.free = true → b.size < MEM_ALIGN_NEXT size.toNat) ∨
      ∃ cs b, Granted A s s' bs cs b ∧ q = b.addr + headerSize ∧
        MEM_ALIGN_NEXT size.toNat ≤ b.size := by
  obtain ⟨heap, found, rfl⟩ := alloc_eq_some.mp result
  rcases search_of_result inv.toLayout found with ⟨none, eq⟩ | ⟨xs, b, ys, rfl, free, le, -, eq⟩
  · obtain ⟨rfl, rfl⟩ := Prod.mk.inj (Option.some.inj eq)
    exact .inl ⟨rfl, rfl, none⟩
  · obtain ⟨rfl, rfl⟩ := Prod.mk.inj (Option.some.inj eq)
    have aligned : 8 ∣ MEM_ALIGN_NEXT size.toNat := Nat.dvd_mul_left _ _
    have layout := layout_takeBlock inv.toLayout free le aligned
    obtain ⟨m, le_m, here, only⟩ := mem_split le
    obtain ⟨fresh, inv'⟩ := inv_grant inv free layout here only
    rw [if_neg (pointer_ne_zero b)]
    refine .inr ⟨_, ⟨b.addr, m, false⟩, ⟨inv', by simp [here], rfl, fresh, rfl, ?_⟩, rfl, le_m⟩
    intro c hc live
    have side := mem_sides hc (ne_of_live live free)
    refine ⟨?_, kept_takeBlock inv.toLayout le side⟩
    simp only [List.mem_append]
    tauto

/-- A release takes the block away. -/
theorem release_cases {fuel : Nat} (inv : Inv A s bs) (mem : b ∈ bs) (live : b.free = false)
    (result : release s fuel (b.addr + headerSize) = some s') :
    ∃ cs, Released A s s' bs cs b := by
  obtain ⟨heap, freed, rfl⟩ := release_eq_some.mp result
  obtain ⟨⟨xs, ys, rfl, inserted⟩, cs, layout, same⟩ :=
    released_of_result inv.toLayout mem live freed
  refine ⟨cs, ⟨layout, ?_, inv.distinct.erase _⟩, rfl, ?_⟩
  · intro p
    rw [inv.distinct.mem_erase_iff, inv.known]
    constructor
    · rintro ⟨ne, c, hc, live_c, rfl⟩
      refine ⟨c, (same c live_c).mpr ⟨hc, ?_⟩, live_c, rfl⟩
      rintro rfl
      exact ne rfl
    · rintro ⟨c, hc, live_c, rfl⟩
      obtain ⟨hc, ne⟩ := (same c live_c).mp hc
      refine ⟨?_, c, hc, live_c, rfl⟩
      intro eq
      exact ne (List.inj_on_of_nodup_map inv.tiled.nodup hc mem (Nat.add_right_cancel eq))
  · intro c hc live_c ne
    refine ⟨(same c live_c).mpr ⟨hc, ne⟩, ?_⟩
    rw [inserted]
    exact kept_insertAfter inv.toLayout hc

end Allocator

/-! ### Rounding and copying -/

section Rounding

variable {A : Arena} {s s' : App} {b c : Block} {bs : List Block}

/-- The two roundings agree, also where they overflow. -/
theorem newSize_toNat (size : UInt32) : (newSize size).toNat = MEM_ALIGN_NEXT size.toNat := by
  have bound := size.toNat_lt
  have multiple : size % 8 = 0 ↔ size.toNat % 8 = 0 := by
    rw [← UInt32.toNat_inj, UInt32.toNat_mod]
    rfl
  unfold newSize MEM_ALIGN_NEXT
  simp only [multiple]
  split_ifs with whole
  · omega
  · simp only [UInt32.toNat_add, UInt32.toNat_mul, UInt32.toNat_div, UInt32.toNat_ofNat,
      Nat.reducePow, Nat.reduceMod]
    omega

theorem le_align {n : Nat} (fits : n ≤ 4294967288) : n ≤ MEM_ALIGN_NEXT n := by
  unfold MEM_ALIGN_NEXT
  omega

theorem align_overflow {n : Nat} (large : 4294967288 < n) (word : n < 4294967296) :
    MEM_ALIGN_NEXT n = 0 := by
  unfold MEM_ALIGN_NEXT
  omega

/-- No block is as large as a size that overflows. -/
theorem size_lt (layout : Layout A s.heap bs) (mem : b ∈ bs) : b.size < 4294967288 := by
  obtain ⟨pos, -, hi, -⟩ := layout.inside mem
  have := A.bound
  unfold headerSize at hi
  omega

theorem memcpy_outside {h : Headers} {dst src n a : Nat} (outside : ¬ (dst ≤ a ∧ a < dst + n)) :
    (memcpy h dst src n).link a = h.link a ∧ (memcpy h dst src n).size a = h.size a :=
  ⟨if_neg outside, if_neg outside⟩

theorem byteAt_memcpy {h : Headers} {dst src n i : Nat} (aligned_dst : 8 ∣ dst)
    (aligned_src : 8 ∣ src) (lt : i < n) :
    byteAt (memcpy h dst src n) (dst + i) = byteAt h (src + i) := by
  have inside : dst ≤ dst + i / 8 * 8 ∧ dst + i / 8 * 8 < dst + n := by omega
  have source : dst + i / 8 * 8 - dst + src = src + i / 8 * 8 := by omega
  apply byteAt_congr aligned_src aligned_dst
  · exact (if_pos inside).trans (by rw [source])
  · exact (if_pos inside).trans (by rw [source])

theorem blocks_disjoint {h : Headers} (layout : Layout A h bs) (mem_b : b ∈ bs) (mem_c : c ∈ bs)
    (ne : b ≠ c) :
    b.addr + headerSize + b.size ≤ c.addr ∨ c.addr + headerSize + c.size ≤ b.addr := by
  obtain ⟨xs, ys, rfl⟩ := List.append_of_mem mem_b
  rcases List.mem_append.mp mem_c with hc | hc
  · exact .inr (layout.before hc)
  · rcases List.mem_cons.mp hc with rfl | hc
    · exact absurd rfl ne
    · exact .inl (layout.after hc)

/-- A copy into a block changes no other. -/
theorem kept_memcpy {h : Headers} {n : Nat} (layout : Layout A h bs) (mem_b : b ∈ bs)
    (mem_c : c ∈ bs) (ne : b ≠ c) (le : n ≤ b.size) (src : Nat) :
    Kept h (memcpy h (b.addr + headerSize) src n) c := by
  intro a lo hi
  apply memcpy_outside
  have := blocks_disjoint layout mem_b mem_c ne
  omega

theorem inv_memcpy {n : Nat} (inv : Inv A s bs) (mem : b ∈ bs) (le : n ≤ b.size) (src : Nat) :
    Inv A { s with heap := memcpy s.heap (b.addr + headerSize) src n } bs := by
  refine ⟨inv.toLayout.congr ?_, inv.known, inv.distinct⟩
  intro a header
  apply memcpy_outside
  have := inv.header_outside mem header
  omega

/-- What `realloc` of a live block can do. -/
theorem realloc_cases {fuel q : Nat} {size : UInt32} (inv : Inv A s bs) (mem : c ∈ bs)
    (live : c.free = false) (result : realloc A s fuel (c.addr + headerSize) size = some (q, s')) :
    (MEM_ALIGN_NEXT size.toNat ≤ c.size ∧ q = c.addr + headerSize ∧ s' = s) ∨
      (c.size < MEM_ALIGN_NEXT size.toNat ∧ q = 0 ∧ s' = s) ∨
      ∃ s₁ cs ds b, Granted A s s₁ bs cs b ∧ q = b.addr + headerSize ∧
        MEM_ALIGN_NEXT size.toNat ≤ b.size ∧ c.size < MEM_ALIGN_NEXT size.toNat ∧
        Released A { s₁ with heap := memcpy s₁.heap q (c.addr + headerSize) c.size } s' cs ds
          c := by
  rw [realloc, if_neg (pointer_ne_zero c)] at result
  simp only [capacity_of_layout inv.toLayout mem, newSize_toNat] at result
  split_ifs at result with enough
  · obtain ⟨rfl, rfl⟩ := Prod.mk.inj (Option.some.inj result)
    exact .inl ⟨enough, rfl, rfl⟩
  · right
    obtain ⟨⟨ptr, s₁⟩, allocated, rest⟩ := Option.bind_eq_some_iff.mp result
    simp only at rest
    rcases alloc_cases inv allocated with ⟨failed, same, -⟩ | ⟨cs, b, granted, rfl, large⟩
    · rw [if_pos failed] at rest
      obtain ⟨rfl, rfl⟩ := Prod.mk.inj (Option.some.inj rest)
      exact .inl ⟨by omega, rfl, same⟩
    · rw [if_neg (pointer_ne_zero b)] at rest
      obtain ⟨s₂, released, final⟩ := Option.bind_eq_some_iff.mp rest
      obtain ⟨rfl, rfl⟩ := Prod.mk.inj (Option.some.inj final)
      have room : c.size ≤ b.size := by omega
      have copied := inv_memcpy granted.inv granted.mem room (c.addr + headerSize)
      obtain ⟨ds, released⟩ := release_cases copied (granted.others c mem live).1 live released
      exact .inr ⟨s₁, cs, ds, b, granted, rfl, large, by omega, released⟩

end Rounding

/-! ### Runs -/

section Runs

variable {A : Arena} {s s' : App} {b c : Block} {bs cs : List Block}

/-- The block of a live pointer. -/
theorem Inv.block {p : Nat} (inv : Inv A s bs) (mem : p ∈ s.live) :
    ∃ b ∈ bs, b.free = false ∧ b.addr + headerSize = p := (inv.known p).mp mem

theorem inv_alloc {fuel q : Nat} {size : UInt32} (inv : Inv A s bs)
    (result : alloc A s fuel size = some (q, s')) : ∃ cs, Inv A s' cs := by
  rcases alloc_cases inv result with ⟨-, rfl, -⟩ | ⟨cs, b, granted, -⟩
  · exact ⟨bs, inv⟩
  · exact ⟨cs, granted.inv⟩

theorem inv_free {fuel p : Nat} (inv : Inv A s bs) (allowed : p = 0 ∨ p ∈ s.live)
    (result : free s fuel p = some s') : ∃ cs, Inv A s' cs := by
  unfold free at result
  split_ifs at result with nonzero
  · obtain ⟨b, hb, live, rfl⟩ := inv.block (allowed.resolve_left nonzero)
    obtain ⟨cs, released⟩ := release_cases inv hb live result
    exact ⟨cs, released.inv⟩
  · obtain rfl := Option.some.inj result
    exact ⟨bs, inv⟩

theorem inv_realloc {fuel p q : Nat} {size : UInt32} (inv : Inv A s bs)
    (allowed : p = 0 ∨ p ∈ s.live) (result : realloc A s fuel p size = some (q, s')) :
    ∃ cs, Inv A s' cs := by
  rcases allowed with rfl | mem
  · exact inv_alloc inv result
  · obtain ⟨c, hc, live, rfl⟩ := inv.block mem
    rcases realloc_cases inv hc live result with
      ⟨-, -, rfl⟩ | ⟨-, -, rfl⟩ | ⟨s₁, cs, ds, b, -, -, -, -, released⟩
    · exact ⟨bs, inv⟩
    · exact ⟨bs, inv⟩
    · exact ⟨ds, released.inv⟩

theorem inv_write {p a u v : Nat} (inv : Inv A s bs) (mem : p ∈ s.live)
    (inside : p ≤ a ∧ a < p + capacity s.heap p) :
    Inv A { s with heap := (s.heap.setLink a u).setSize a v } bs := by
  obtain ⟨b, hb, -, rfl⟩ := inv.block mem
  rw [capacity_of_layout inv.toLayout hb] at inside
  refine ⟨inv.toLayout.congr ?_, inv.known, inv.distinct⟩
  intro a' header
  have other : a' ≠ a := by
    rintro rfl
    exact inv.header_outside hb header inside
  exact ⟨Function.update_of_ne other _ _, Function.update_of_ne other _ _⟩

theorem inv_step (inv : Inv A s bs) (step : Step A s s') : ∃ cs, Inv A s' cs := by
  cases step with
  | malloc fuel size result => exact inv_alloc inv result
  | free fuel p allowed result => exact inv_free inv allowed result
  | realloc fuel p size allowed result => exact inv_realloc inv allowed result
  | write p a u v mem aligned inside => exact ⟨bs, inv_write inv mem inside⟩

theorem Reachable.inv (reachable : Reachable A s) : ∃ bs, Inv A s bs := by
  obtain ⟨h, run⟩ := reachable
  induction run with
  | refl =>
      refine ⟨_, layout_init A h, ?_, .nil⟩
      intro p
      constructor
      · intro mem
        exact absurd mem (by simp)
      · rintro ⟨b, hb, live, -⟩
        rw [List.mem_singleton.mp hb] at live
        exact absurd live (by simp)
  | tail _ step ih =>
      obtain ⟨bs, inv⟩ := ih
      exact inv_step inv step

/-! ### What a request gives -/

theorem Inv.disjoint {p q : Nat} (inv : Inv A s bs) (mem_p : p ∈ s.live) (mem_q : q ∈ s.live)
    (ne : p ≠ q) : Disjoint s.heap p q := by
  obtain ⟨b, hb, -, rfl⟩ := inv.block mem_p
  obtain ⟨c, hc, -, rfl⟩ := inv.block mem_q
  have other : b ≠ c := by
    rintro rfl
    exact ne rfl
  have apart := blocks_disjoint inv.toLayout hb hc other
  unfold Disjoint
  rw [capacity_of_layout inv.toLayout hb, capacity_of_layout inv.toLayout hc]
  omega

/-- A block in both layouts that kept its units has the same capacity and bytes. -/
theorem same_block (inv : Inv A s bs) (inv' : Inv A s' cs) (old : c ∈ bs) (new : c ∈ cs)
    (kept : Kept s.heap s'.heap c) :
    capacity s'.heap (c.addr + headerSize) = capacity s.heap (c.addr + headerSize) ∧
      ∀ i, i < capacity s.heap (c.addr + headerSize) →
        byteAt s'.heap (c.addr + headerSize + i) = byteAt s.heap (c.addr + headerSize + i) := by
  rw [capacity_of_layout inv.toLayout old, capacity_of_layout inv'.toLayout new]
  exact ⟨rfl, fun i lt => kept.byteAt (aligned_of_layout inv.toLayout old) lt⟩

/-- A new block serves a request when the others, but for `p`, are kept. -/
theorem served_new {p size : Nat} (inv : Inv A s bs) (inv' : Inv A s' cs) (mem : b ∈ cs)
    (live : b.free = false) (fresh : b.addr + headerSize ∉ s.live) (large : size ≤ b.size)
    (others : ∀ d ∈ bs, d.free = false → d.addr + headerSize ≠ p →
      d ∈ cs ∧ Kept s.heap s'.heap d)
    (preserved : p ≠ 0 → ∀ i, i < min (capacity s.heap p) size →
      byteAt s'.heap (b.addr + headerSize + i) = byteAt s.heap (p + i))
    (moved : p ≠ 0 → p ∉ s'.live) :
    Served s p size (b.addr + headerSize) s' := by
  have here : b.addr + headerSize ∈ s'.live := (inv'.known _).mpr ⟨b, mem, live, rfl⟩
  constructor
  · exact here
  · rw [capacity_of_layout inv'.toLayout mem]
    exact large
  · intro r hr ne
    exact inv'.disjoint here hr ne.symm
  · intro r hr ne
    obtain ⟨d, hd, live_d, rfl⟩ := inv.block hr
    obtain ⟨new, kept⟩ := others d hd live_d ne
    obtain ⟨same, bytes⟩ := same_block inv inv' hd new kept
    refine ⟨?_, (inv'.known _).mpr ⟨d, new, live_d, rfl⟩, same, bytes⟩
    intro eq
    exact fresh (eq ▸ hr)
  · exact preserved
  · intro nonzero _
    exact moved nonzero

/-- A live block that is large enough serves a request as it is. -/
theorem served_same {p size : Nat} (inv : Inv A s bs) (mem : p ∈ s.live)
    (large : size ≤ capacity s.heap p) : Served s p size p s := by
  constructor
  · exact mem
  · exact large
  · intro r hr ne
    exact inv.disjoint mem hr ne.symm
  · intro r hr ne
    exact ⟨ne, hr, rfl, fun _ _ => rfl⟩
  · intro _ i _
    rfl
  · intro _ ne
    exact absurd rfl ne

theorem served_granted {size : UInt32} (inv : Inv A s bs) (granted : Granted A s s' bs cs b)
    (large : size.toNat ≤ b.size) : Served s 0 size.toNat (b.addr + headerSize) s' := by
  apply served_new inv granted.inv granted.mem granted.live granted.fresh large
  · intro d hd live _
    exact granted.others d hd live
  · intro nonzero
    exact absurd rfl nonzero
  · intro nonzero
    exact absurd rfl nonzero

/-- `realloc` to another block. -/
theorem served_moved {size : UInt32} {s₁ : App} {ds : List Block} (inv : Inv A s bs)
    (mem : c ∈ bs) (live : c.free = false) (granted : Granted A s s₁ bs cs b)
    (large : size.toNat ≤ b.size) (room : c.size ≤ b.size)
    (released : Released A { s₁ with
      heap := memcpy s₁.heap (b.addr + headerSize) (c.addr + headerSize) c.size } s' cs ds c) :
    Served s (c.addr + headerSize) size.toNat (b.addr + headerSize) s' := by
  have other : b ≠ c := by
    rintro rfl
    exact granted.fresh ((inv.known _).mpr ⟨b, mem, live, rfl⟩)
  obtain ⟨mem_b, kept_b⟩ := released.others b granted.mem granted.live other
  apply served_new inv released.inv mem_b granted.live granted.fresh large
  · intro d hd live_d ne
    have ne_c : d ≠ c := by
      rintro rfl
      exact ne rfl
    have ne_b : b ≠ d := by
      rintro rfl
      exact granted.fresh ((inv.known _).mpr ⟨b, hd, live_d, rfl⟩)
    obtain ⟨first, kept₁⟩ := granted.others d hd live_d
    obtain ⟨last, kept₃⟩ := released.others d first live_d ne_c
    have kept₂ := kept_memcpy granted.inv.toLayout granted.mem first ne_b room
    exact ⟨last, (kept₁.trans (kept₂ _)).trans kept₃⟩
  · intro _ i lt
    rw [capacity_of_layout inv.toLayout mem] at lt
    have in_c : i < c.size := lt_of_lt_of_le lt (min_le_left _ _)
    have aligned_c := aligned_of_layout inv.toLayout mem
    have aligned_b := aligned_of_layout granted.inv.toLayout granted.mem
    calc byteAt s'.heap (b.addr + headerSize + i)
      _ = byteAt (memcpy s₁.heap (b.addr + headerSize) (c.addr + headerSize) c.size)
            (b.addr + headerSize + i) := kept_b.byteAt aligned_b (lt_of_lt_of_le in_c room)
      _ = byteAt s₁.heap (c.addr + headerSize + i) :=
          byteAt_memcpy (Nat.dvd_add aligned_b ⟨1, rfl⟩) (Nat.dvd_add aligned_c ⟨1, rfl⟩) in_c
      _ = byteAt s.heap (c.addr + headerSize + i) :=
          (granted.others c mem live).2.byteAt aligned_c in_c
  · intro _ still
    rw [released.pointers] at still
    exact (granted.inv.distinct.mem_erase_iff.mp still).1 rfl

/-! ### When a request meets its contract -/

theorem alloc_empty {fuel q : Nat} {size : UInt32} (empty : s.heap.link A.h_free = 0)
    (result : alloc A s fuel size = some (q, s')) : q = 0 ∧ s' = s := by
  obtain ⟨heap, found, rfl⟩ := alloc_eq_some.mp result
  cases fuel with
  | zero => exact absurd found (by simp [chHeapAlloc, allocLoop])
  | succ fuel =>
      rw [chHeapAlloc, allocLoop, if_neg (not_not.mpr empty)] at found
      obtain ⟨rfl, rfl⟩ := Prod.mk.inj (Option.some.inj found)
      exact ⟨rfl, rfl⟩

theorem free_block (inv : Inv A s bs) (nonempty : s.heap.link A.h_free ≠ 0) :
    ∃ b ∈ bs, b.free = true := by
  have chain := inv.chain
  cases first : freeList bs with
  | nil =>
      rw [first, chain_nil] at chain
      exact absurd chain nonempty
  | cons a as =>
      obtain ⟨b, hb, free, -⟩ := mem_freeList.mp (first ▸ List.mem_cons_self)
      exact ⟨b, hb, free⟩

theorem realloc_returns (inv : Inv A s bs) (mem : c ∈ bs) (live : c.free = false) (size : UInt32) :
    ∃ k, ∀ fuel, k < fuel → (realloc A s fuel (c.addr + headerSize) size).isSome := by
  simp only [realloc, if_neg (pointer_ne_zero c), capacity_of_layout inv.toLayout mem,
    newSize_toNat]
  by_cases enough : MEM_ALIGN_NEXT size.toNat ≤ c.size
  · refine ⟨0, ?_⟩
    intro fuel _
    rw [if_pos enough]
    rfl
  · obtain ⟨q, s₁, found⟩ := alloc_returns inv (Nat.lt_succ_self bs.length) size
    rcases alloc_cases inv found with ⟨rfl, -, -⟩ | ⟨cs, b, granted, rfl, large⟩
    · refine ⟨bs.length, ?_⟩
      intro fuel lt
      rw [if_neg enough, alloc_mono lt found]
      rfl
    · have room : c.size ≤ b.size := by omega
      have copied := inv_memcpy granted.inv granted.mem room (c.addr + headerSize)
      obtain ⟨s₂, released⟩ :=
        release_returns copied (granted.others c mem live).1 live (Nat.lt_succ_self cs.length)
      refine ⟨bs.length + cs.length, ?_⟩
      intro fuel lt
      have more := alloc_mono (show bs.length.succ ≤ fuel by omega) found
      have more' := release_mono (show cs.length.succ ≤ fuel by omega) released
      rw [if_neg enough, more, Option.bind_eq_bind, Option.bind_some,
        if_neg (pointer_ne_zero b), more']
      rfl

/-- Without a block to give up a request is an allocation. -/
theorem Request.run_null {r : Request} (null : r.old = 0) (fuel : Nat) :
    r.run A s fuel = alloc A s fuel r.size := by
  cases r with
  | malloc size => rfl
  | realloc p size =>
      obtain rfl : p = 0 := null
      rfl

theorem Request.run_live {r : Request} (inv : Inv A s bs) (mem : r.old ∈ s.live) (fuel : Nat) :
    r.run A s fuel = AppHeap.realloc A s fuel r.old r.size := by
  cases r with
  | malloc size =>
      obtain ⟨b, -, -, eq⟩ := inv.block mem
      exact absurd eq (pointer_ne_zero b)
  | realloc p size => rfl

theorem Request.returns {r : Request} (inv : Inv A s bs) (allowed : r.Allowed s) :
    ∃ k, ∀ fuel, k < fuel → (r.run A s fuel).isSome := by
  rcases allowed with null | mem
  · refine ⟨bs.length, ?_⟩
    intro fuel enough
    obtain ⟨q, s', result⟩ := alloc_returns inv enough r.size
    rw [Request.run_null null, result]
    rfl
  · obtain ⟨c, hc, live, eq⟩ := inv.block mem
    obtain ⟨k, returns⟩ := realloc_returns inv hc live r.size
    refine ⟨k, ?_⟩
    intro fuel lt
    rw [Request.run_live inv mem, ← eq]
    exact returns fuel lt

/-- A request whose size can be rounded up fails or is served. -/
theorem Request.served {r : Request} {fuel q : Nat} (inv : Inv A s bs) (allowed : r.Allowed s)
    (fits : r.size.toNat ≤ 4294967288) (result : r.run A s fuel = some (q, s')) :
    (q = 0 ∧ s' = s) ∨ Served s r.old r.size.toNat q s' := by
  have rounded := le_align fits
  rcases allowed with null | mem
  · rw [Request.run_null null] at result
    rcases alloc_cases inv result with ⟨failed, same, -⟩ | ⟨cs, b, granted, rfl, large⟩
    · exact .inl ⟨failed, same⟩
    · rw [null]
      exact .inr (served_granted inv granted (le_trans rounded large))
  · rw [Request.run_live inv mem] at result
    obtain ⟨c, hc, live, eq⟩ := inv.block mem
    rw [← eq] at result ⊢
    rcases realloc_cases inv hc live result with
      ⟨large, rfl, rfl⟩ | ⟨-, failed, same⟩ | ⟨s₁, cs, ds, b, granted, rfl, large, grown, released⟩
    · right
      apply served_same inv (eq ▸ mem)
      rw [capacity_of_layout inv.toLayout hc]
      exact le_trans rounded large
    · exact .inl ⟨failed, same⟩
    · exact .inr (served_moved inv hc live granted (le_trans rounded large) (by omega) released)

/-- A size that overflows gives a block, unless there is none to give. -/
theorem Request.short {r : Request} {fuel q : Nat} (inv : Inv A s bs) (allowed : r.Allowed s)
    (large : 4294967288 < r.size.toNat) (some_block : r.old = 0 → s.heap.link A.h_free ≠ 0)
    (result : r.run A s fuel = some (q, s')) :
    q ≠ 0 ∧ capacity s'.heap q < r.size.toNat := by
  have overflow := align_overflow large r.size.toNat_lt
  rcases allowed with null | mem
  · rw [Request.run_null null] at result
    obtain ⟨c, hc, free⟩ := free_block inv (some_block null)
    rcases alloc_cases inv result with ⟨-, -, none⟩ | ⟨cs, b, granted, rfl, -⟩
    · have := none c hc free
      omega
    · have := size_lt granted.inv.toLayout granted.mem
      rw [capacity_of_layout granted.inv.toLayout granted.mem]
      exact ⟨pointer_ne_zero b, by omega⟩
  · rw [Request.run_live inv mem] at result
    obtain ⟨c, hc, live, eq⟩ := inv.block mem
    rw [← eq] at result
    rcases realloc_cases inv hc live result with
      ⟨-, rfl, rfl⟩ | ⟨small, -, -⟩ | ⟨s₁, cs, ds, b, -, -, -, small, -⟩
    · have := size_lt inv.toLayout hc
      rw [capacity_of_layout inv.toLayout hc]
      exact ⟨pointer_ne_zero c, by omega⟩
    · omega
    · omega

/-- In every reachable state a request returns, and fails or is served, exactly when its
size can be rounded up to a multiple of 8, or it gives up no block and none is free. -/
theorem meets_iff_fits {r : Request} (reachable : Reachable A s) (allowed : r.Allowed s) :
    r.Meets A s ↔ r.Fits A s := by
  obtain ⟨bs, inv⟩ := reachable.inv
  constructor
  · rintro ⟨⟨k, returns⟩, correct⟩
    by_contra misfit
    obtain ⟨large, some_block⟩ := not_or.mp misfit
    obtain ⟨⟨q, s'⟩, result⟩ := Option.isSome_iff_exists.mp (returns (k + 1) (Nat.lt_succ_self k))
    obtain ⟨nonzero, small⟩ := Request.short inv allowed (not_le.mp large)
      (fun null empty => some_block ⟨null, empty⟩) result
    rcases correct _ q s' result with ⟨failed, -⟩ | served
    · exact nonzero failed
    · have := served.large
      omega
  · intro fits
    refine ⟨Request.returns inv allowed, ?_⟩
    intro fuel q s' result
    rcases fits with fits | ⟨null, empty⟩
    · exact Request.served inv allowed fits result
    · left
      rw [Request.run_null null] at result
      exact alloc_empty empty result

/-- The state at the start. -/
def initialApp : App := ⟨chHeapObjectInit sampleArena ⟨fun _ => 0, fun _ => 0⟩, []⟩

/-- The state after `malloc(20)`. -/
def sampleApp : App := ⟨takeBlock sampleArena initialApp.heap 8200 4096 24, [4104]⟩

theorem meets_iff_fits_sample :
    Reachable sampleArena sampleApp ∧ (Request.realloc 4104 64).Meets sampleArena sampleApp := by
  have reachable : Reachable sampleArena sampleApp :=
    ⟨⟨fun _ => 0, fun _ => 0⟩, .single (.malloc (q := 4104) 2 20 rfl)⟩
  have allowed : (Request.realloc 4104 64).Allowed sampleApp := .inr List.mem_cons_self
  exact ⟨reachable, (meets_iff_fits reachable allowed).mpr (.inl (by decide))⟩

/-- `malloc(0xFFFFFFFF)` on the initial heap returns a block of no bytes. -/
theorem malloc_overflow : ¬ ∀ (A : Arena) (s : App) (r : Request),
    Reachable A s → r.Allowed s → r.Meets A s := by
  intro meets
  have reachable : Reachable sampleArena initialApp := ⟨_, .refl⟩
  obtain ⟨-, correct⟩ := meets sampleArena initialApp (.malloc 0xFFFFFFFF) reachable (.inl rfl)
  rcases correct 1 4104 ⟨takeBlock sampleArena initialApp.heap 8200 4096 0, [4104]⟩ rfl with
    ⟨failed, -⟩ | served
  · exact absurd failed (by decide)
  · exact absurd served.large (by decide)

end Runs

end LtcOs.AppHeap
