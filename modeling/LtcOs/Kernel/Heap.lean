import LtcOs.Lib.Chain

/-!
The memory heap `chheap.c`, on a heap without a provider.

The bottom layer is the code on the words of the block headers. Above it a layout is
the list of all blocks of the arena, free and live, in the order of their addresses;
`Layout` relates the two. Allocation and release are a local change of the layout
each, and a layout with no live block can only be the initial one.
-/

namespace LtcOs.Heap

open LtcOs.Linked

/-! ### The code -/

/-- `sizeof(union heap_header)`. -/
def headerSize : Nat := 8

/-- `MEM_ALIGN_NEXT` in 32 bits. -/
def MEM_ALIGN_NEXT (size : Nat) : Nat := (size + 7) % 4294967296 / 8 * 8

/-- The memory of the headers, by address: the overlapped fields `h.u.next` and
`h.u.heap`, and `h.size`. -/
structure Headers where
  link : Nat → Nat
  size : Nat → Nat

/-- The arena of a heap and the address of its descriptor, which is another object. -/
structure Arena where
  base : Nat
  size : Nat
  heapp : Nat
  base_aligned : 8 ∣ base
  size_aligned : 8 ∣ size
  base_pos : 0 < base
  fits : headerSize ≤ size
  bound : base + size < 4294967296
  apart : base + size ≤ heapp ∨ heapp + 32 ≤ base

/-- `&heapp->h_free`. -/
def Arena.h_free (A : Arena) : Nat := A.heapp + 8

namespace Headers

/-- `LIMIT`. -/
def limit (s : Headers) (p : Nat) : Nat := p + headerSize + s.size p

def setLink (s : Headers) (p v : Nat) : Headers := { s with link := Function.update s.link p v }

def setSize (s : Headers) (p v : Nat) : Headers := { s with size := Function.update s.size p v }

end Headers

def chHeapObjectInit (A : Arena) (s : Headers) : Headers :=
  let hp := A.base
  let s := s.setLink A.h_free hp
  let s := s.setSize A.h_free 0
  let s := s.setLink hp 0
  s.setSize hp (A.size - headerSize)

/-- Take the block `hp` after `qp`, or a part of it. -/
def takeBlock (A : Arena) (s : Headers) (qp hp size : Nat) : Headers :=
  let s :=
    if s.size hp < (size + headerSize) % 4294967296 then s.setLink qp (s.link hp)
    else
      let fp := hp + headerSize + size
      let s := s.setLink fp (s.link hp)
      let s := s.setSize fp (s.size hp - headerSize - size)
      let s := s.setLink qp fp
      s.setSize hp size
  s.setLink hp A.heapp

/-- The loop of `chHeapAlloc` with a bound on the rounds. The result is the pointer
returned, zero for `NULL`. -/
def allocLoop (A : Arena) (s : Headers) (size : Nat) :
    (fuel : Nat) → (qp : Nat) → Option (Nat × Headers)
  | 0, _ => none
  | fuel + 1, qp =>
      if s.link qp ≠ 0 then
        let hp := s.link qp
        if size ≤ s.size hp then some (hp + headerSize, takeBlock A s qp hp size)
        else allocLoop A s size fuel hp
      else some (0, s)

def chHeapAlloc (A : Arena) (s : Headers) (fuel size : Nat) : Option (Nat × Headers) :=
  allocLoop A s (MEM_ALIGN_NEXT size) fuel A.h_free

/-- Insertion of `hp` after `qp`, with the merges. -/
def insertAfter (s : Headers) (qp hp : Nat) : Headers :=
  let s := s.setLink hp (s.link qp)
  let s := s.setLink qp hp
  let s :=
    if s.limit hp = s.link hp then
      let s := s.setSize hp (s.size hp + (s.size (s.link hp) + headerSize))
      s.setLink hp (s.link (s.link hp))
    else s
  if s.limit qp = hp then
    let s := s.setSize qp (s.size qp + (s.size hp + headerSize))
    s.setLink qp (s.link hp)
  else s

/-- The loop of `chHeapFree` with a bound on the rounds. -/
def freeLoop (h_free : Nat) (s : Headers) (hp : Nat) : (fuel : Nat) → (qp : Nat) → Option Headers
  | 0, _ => none
  | fuel + 1, qp =>
      if (qp = h_free ∨ qp < hp) ∧ (s.link qp = 0 ∨ hp < s.link qp) then some (insertAfter s qp hp)
      else freeLoop h_free s hp fuel (s.link qp)

def chHeapFree (s : Headers) (fuel p : Nat) : Option Headers :=
  let hp := p - headerSize
  let heapp := s.link hp
  freeLoop (heapp + 8) s hp fuel (heapp + 8)

/-! ### Runs -/

/-- A block handed out: its header, the size asked for, and `h.size` at that time. -/
structure Live where
  header : Nat
  requested : Nat
  granted : Nat
deriving DecidableEq

structure Sys where
  heap : Headers
  live : List Live

/-- Allocations whose alignment does not overflow, releases of live blocks, and
whatever is written to the contents of a live block. -/
inductive Step (A : Arena) : Sys → Sys → Prop where
  | alloc {s : Sys} {heap : Headers} {p : Nat} (fuel size : Nat) (small : size + 7 < 4294967296)
      (result : chHeapAlloc A s.heap fuel size = some (p, heap)) :
      Step A s ⟨heap, if p = 0 then s.live
        else ⟨p - headerSize, size, heap.size (p - headerSize)⟩ :: s.live⟩
  | free {s : Sys} {heap : Headers} (fuel : Nat) (b : Live) (mem : b ∈ s.live)
      (result : chHeapFree s.heap fuel (b.header + headerSize) = some heap) :
      Step A s ⟨heap, s.live.erase b⟩
  | write {s : Sys} (b : Live) (mem : b ∈ s.live) (a u v : Nat)
      (inside : b.header + headerSize ≤ a ∧ a < b.header + headerSize + b.granted) :
      Step A s ⟨(s.heap.setLink a u).setSize a v, s.live⟩

def Reachable (A : Arena) (s : Sys) : Prop :=
  ∃ h, Relation.ReflTransGen (Step A) ⟨chHeapObjectInit A h, []⟩ s

/-! ### Layouts -/

/-- A block of the arena, with the address of its header. -/
structure Block where
  addr : Nat
  size : Nat
  free : Bool
deriving DecidableEq

/-- The blocks fill the memory from `lo` to `hi`. -/
def Tiled (hi : Nat) : (lo : Nat) → List Block → Prop
  | lo, [] => lo = hi
  | lo, b :: bs => b.addr = lo ∧ 8 ∣ b.size ∧ Tiled hi (lo + headerSize + b.size) bs

/-- The headers of the free blocks. -/
def freeList (bs : List Block) : List Nat := (bs.filter (·.free)).map (·.addr)

/-- Not both are free. -/
def Apart (b c : Block) : Prop := ¬ (b.free = true ∧ c.free = true)

/-- The memory holds the blocks. -/
structure Shape (A : Arena) (s : Headers) (bs : List Block) : Prop where
  tiled : Tiled (A.base + A.size) A.base bs
  sizes : ∀ b ∈ bs, s.size b.addr = b.size
  chain : Chain 0 s.link A.h_free (freeList bs)
  owner : ∀ b ∈ bs, b.free = false → s.link b.addr = A.heapp
  header : s.size A.h_free = 0

/-- Between two calls no two free blocks are adjacent. -/
structure Layout (A : Arena) (s : Headers) (bs : List Block) : Prop extends Shape A s bs where
  apart : bs.IsChain Apart

section Tiles

variable {lo hi : Nat} {b : Block} {bs xs ys : List Block}

theorem tiled_append :
    Tiled hi lo (xs ++ ys) ↔ ∃ mid, Tiled mid lo xs ∧ Tiled hi mid ys := by
  induction xs generalizing lo with
  | nil => simp [Tiled]
  | cons x xs ih =>
      simp only [List.cons_append, Tiled, ih]
      constructor
      · rintro ⟨addr, aligned, mid, before, after⟩
        exact ⟨mid, ⟨addr, aligned, before⟩, after⟩
      · rintro ⟨mid, ⟨addr, aligned, before⟩, after⟩
        exact ⟨addr, aligned, mid, before, after⟩

theorem Tiled.le (tiled : Tiled hi lo bs) : lo ≤ hi := by
  induction bs generalizing lo with
  | nil => exact tiled.le
  | cons b bs ih =>
      have := ih tiled.2.2
      unfold headerSize at this
      omega

/-- Where a block of a tiling is. -/
theorem Tiled.mem (tiled : Tiled hi lo bs) (mem : b ∈ bs) :
    lo ≤ b.addr ∧ b.addr + headerSize + b.size ≤ hi ∧ 8 ∣ b.size := by
  induction bs generalizing lo with
  | nil => exact absurd mem (by simp)
  | cons c bs ih =>
      obtain ⟨addr, aligned, rest⟩ := tiled
      have le := rest.le
      rcases List.mem_cons.mp mem with rfl | mem
      · rw [addr]
        exact ⟨le_rfl, le, aligned⟩
      · obtain ⟨first, last, aligned'⟩ := ih rest mem
        exact ⟨by unfold headerSize at first; omega, last, aligned'⟩

/-- Blocks are in the order of their addresses. -/
theorem Tiled.sorted (tiled : Tiled hi lo bs) :
    bs.Pairwise fun b c => b.addr + headerSize + b.size ≤ c.addr := by
  induction bs generalizing lo with
  | nil => exact .nil
  | cons b bs ih =>
      obtain ⟨addr, -, rest⟩ := tiled
      apply List.Pairwise.cons _ (ih rest)
      intro c hc
      rw [addr]
      exact (rest.mem hc).1

theorem Tiled.nodup (tiled : Tiled hi lo bs) : (bs.map (·.addr)).Nodup := by
  rw [List.Nodup, List.pairwise_map]
  apply tiled.sorted.imp
  intro b c le
  unfold headerSize at le
  omega

theorem freeList_append (xs ys : List Block) :
    freeList (xs ++ ys) = freeList xs ++ freeList ys := by
  simp [freeList]

theorem freeList_cons_free (free : b.free = true) (bs : List Block) :
    freeList (b :: bs) = b.addr :: freeList bs := by
  simp [freeList, free]

theorem freeList_cons_live (live : b.free = false) (bs : List Block) :
    freeList (b :: bs) = freeList bs := by
  simp [freeList, live]

/-- A live block and a free one are two. -/
theorem ne_of_live {c : Block} (live : c.free = false) (free : b.free = true) : c ≠ b := by
  rintro rfl
  exact absurd (live.symm.trans free) (by simp)

theorem mem_sides {c : Block} (mem : c ∈ xs ++ b :: ys) (ne : c ≠ b) : c ∈ xs ∨ c ∈ ys := by
  simp only [List.mem_append, List.mem_cons, ne, false_or] at mem
  exact mem

/-- The pointer to a block is not `NULL`. -/
theorem pointer_ne_zero (b : Block) : b.addr + headerSize ≠ 0 := by
  unfold headerSize
  omega

theorem mem_freeList {a : Nat} : a ∈ freeList bs ↔ ∃ b ∈ bs, b.free = true ∧ b.addr = a := by
  simp [freeList, and_assoc]

end Tiles

section Facts

variable {A : Arena} {s : Headers} {b c : Block} {bs xs ys : List Block}

theorem Shape.before (shape : Shape A s (xs ++ b :: ys)) (mem : c ∈ xs) :
    c.addr + headerSize + c.size ≤ b.addr :=
  (List.pairwise_append.mp shape.tiled.sorted).2.2 c mem b List.mem_cons_self

theorem Shape.after (shape : Shape A s (xs ++ b :: ys)) (mem : c ∈ ys) :
    b.addr + headerSize + b.size ≤ c.addr :=
  (List.pairwise_cons.mp (List.pairwise_append.mp shape.tiled.sorted).2.1).1 c mem

/-- Blocks are in the arena, and the header of the free list is not. -/
theorem Shape.inside (shape : Shape A s bs) (mem : b ∈ bs) :
    0 < b.addr ∧ A.base ≤ b.addr ∧ b.addr + headerSize + b.size ≤ A.base + A.size ∧
      b.addr ≠ A.h_free ∧ 8 ∣ b.size := by
  obtain ⟨lo, hi, aligned⟩ := shape.tiled.mem mem
  have := A.base_pos
  have := A.apart
  unfold Arena.h_free headerSize at *
  omega

theorem Shape.nodup (shape : Shape A s bs) : (A.h_free :: freeList bs).Nodup := by
  apply List.nodup_cons.mpr
  constructor
  · intro mem
    obtain ⟨b, hb, -, eq⟩ := mem_freeList.mp mem
    exact (shape.inside hb).2.2.2.1 eq
  · exact shape.tiled.nodup.sublist (List.filter_sublist.map _)

/-- The block before `b` on the free list is another one. -/
theorem Shape.lastOf_ne (shape : Shape A s (xs ++ b :: ys)) :
    lastOf A.h_free (freeList xs) ≠ b.addr ∧
      ∀ c ∈ ys, lastOf A.h_free (freeList xs) ≠ c.addr := by
  have mem := lastOf_mem A.h_free (freeList xs)
  have far : ∀ a, b.addr ≤ a → a ≠ A.h_free → lastOf A.h_free (freeList xs) ≠ a := by
    intro a le other eq
    rw [eq] at mem
    rcases List.mem_cons.mp mem with h | h
    · exact other h
    · obtain ⟨c, hc, -, rfl⟩ := mem_freeList.mp h
      have := shape.before hc
      unfold headerSize at this
      omega
  constructor
  · exact far b.addr le_rfl (shape.inside (by simp)).2.2.2.1
  · intro c hc
    have := shape.after hc
    apply far c.addr _ (shape.inside (by simp [hc])).2.2.2.1
    unfold headerSize at this
    omega

/-- The free list up to a block, and from it on. -/
theorem Shape.chain_split (shape : Shape A s (xs ++ ys)) :
    Path s.link A.h_free (freeList xs) ∧ (A.h_free :: freeList xs).Nodup ∧
      Chain 0 s.link (lastOf A.h_free (freeList xs)) (freeList ys) := by
  have chain := shape.chain
  have nodup := shape.nodup
  rw [freeList_append] at chain nodup
  rw [← List.cons_append] at nodup
  obtain ⟨path, chain⟩ := chain_append.mp chain
  exact ⟨path, (List.nodup_append.mp nodup).1, chain⟩

/-- A live block is not on the free list. -/
theorem Shape.live_ne_last (shape : Shape A s bs) (mem : c ∈ bs) (live : c.free = false)
    (sub : ∀ d ∈ xs, d ∈ bs) : c.addr ≠ lastOf A.h_free (freeList xs) := by
  intro eq
  rcases List.mem_cons.mp (lastOf_mem A.h_free (freeList xs)) with h | h
  · exact (shape.inside mem).2.2.2.1 (eq.trans h)
  · rw [← eq] at h
    obtain ⟨d, hd, free, same⟩ := mem_freeList.mp h
    exact ne_of_live live free (List.inj_on_of_nodup_map shape.tiled.nodup mem (sub d hd) same.symm)

/-- Blocks other than `b` have other headers. -/
theorem Shape.other (shape : Shape A s (xs ++ b :: ys)) (mem : c ∈ xs ∨ c ∈ ys) :
    c.addr ≠ b.addr := by
  rcases mem with mem | mem
  · have := shape.before mem
    unfold headerSize at this
    omega
  · have := shape.after mem
    unfold headerSize at this
    omega

/-- The headers of the blocks and of the free list are outside the contents of every block. -/
theorem Shape.header_outside {a : Nat} (shape : Shape A s bs) (mem : b ∈ bs)
    (header : a = A.h_free ∨ ∃ c ∈ bs, c.addr = a) :
    ¬ (b.addr + headerSize ≤ a ∧ a < b.addr + headerSize + b.size) := by
  obtain ⟨xs, ys, rfl⟩ := List.append_of_mem mem
  rcases header with rfl | ⟨c, hc, rfl⟩
  · have bounds := shape.inside mem
    have := A.apart
    unfold Arena.h_free headerSize at *
    omega
  · rcases List.mem_append.mp hc with hc | hc
    · have := shape.before hc
      unfold headerSize at *
      omega
    · rcases List.mem_cons.mp hc with rfl | hc
      · unfold headerSize
        omega
      · have := shape.after hc
        unfold headerSize at *
        omega

theorem mem_middle {P : Block → Prop} (here : P b) (others : ∀ c, c ∈ xs ∨ c ∈ ys → P c) :
    ∀ c ∈ xs ++ b :: ys, P c := by
  intro c hc
  rcases List.mem_append.mp hc with hc | hc
  · exact others c (.inl hc)
  · rcases List.mem_cons.mp hc with rfl | hc
    · exact here
    · exact others c (.inr hc)

/-- Blocks in the middle are replaced by free blocks, and the headers of all others stay. -/
theorem Shape.splice {s' : Headers} {bs' : List Block} (shape : Shape A s (xs ++ (bs ++ ys)))
    (others : ∀ c, c ∈ xs ∨ c ∈ ys →
      s'.link c.addr = s.link c.addr ∧ s'.size c.addr = s.size c.addr)
    (head : s'.link A.h_free = s.link A.h_free ∧ s'.size A.h_free = s.size A.h_free)
    (tiled : Tiled (A.base + A.size) A.base (xs ++ (bs' ++ ys)))
    (new : ∀ c ∈ bs', c.free = true ∧ s'.size c.addr = c.size)
    (chain : s'.link (lastOf A.h_free (freeList xs)) = s.link (lastOf A.h_free (freeList xs)) →
      Chain 0 s'.link (lastOf A.h_free (freeList xs)) (freeList (bs' ++ ys))) :
        Shape A s' (xs ++ (bs' ++ ys)) := by
  obtain ⟨path, nodup, -⟩ := shape.chain_split
  have kept : ∀ a, a ∈ A.h_free :: freeList xs → s'.link a = s.link a := by
    intro a ha
    rcases List.mem_cons.mp ha with rfl | ha
    · exact head.1
    · obtain ⟨c, hc, -, rfl⟩ := mem_freeList.mp ha
      exact (others c (.inl hc)).1
  have old : ∀ c, c ∈ xs ∨ c ∈ ys → c ∈ xs ++ (bs ++ ys) := by
    intro c hc
    simp only [List.mem_append]
    tauto
  constructor
  · exact tiled
  · intro c hc
    simp only [List.mem_append] at hc
    rcases hc with hc | hc | hc
    · rw [(others c (.inl hc)).2]
      exact shape.sizes c (old c (.inl hc))
    · exact (new c hc).2
    · rw [(others c (.inr hc)).2]
      exact shape.sizes c (old c (.inr hc))
  · rw [freeList_append, chain_append]
    refine ⟨path.congr nodup fun a ha _ => kept a ha, ?_⟩
    exact chain (kept _ (lastOf_mem _ _))
  · intro c hc live
    simp only [List.mem_append] at hc
    rcases hc with hc | hc | hc
    · rw [(others c (.inl hc)).1]
      exact shape.owner c (old c (.inl hc)) live
    · exact absurd (live.symm.trans (new c hc).1) (by simp)
    · rw [(others c (.inr hc)).1]
      exact shape.owner c (old c (.inr hc)) live
  · rw [head.2]
    exact shape.header

/-- A block changes hands: of the links, only its own and that of the free block before it change. -/
theorem Shape.relabel {s' : Headers} (shape : Shape A s (xs ++ b :: ys)) (b' : Block)
    (addr : b'.addr = b.addr) (size : b'.size = b.size) (sizes : s'.size = s.size)
    (link : ∀ a, a ≠ b.addr → a ≠ lastOf A.h_free (freeList xs) → s'.link a = s.link a)
    (owner : b'.free = false → s'.link b.addr = A.heapp)
    (chain : Chain 0 s'.link (lastOf A.h_free (freeList xs)) (freeList (b' :: ys))) :
    Shape A s' (xs ++ b' :: ys) := by
  obtain ⟨path, nodup, -⟩ := shape.chain_split
  constructor
  · obtain ⟨mid, before, at_mid, aligned, after⟩ := tiled_append.mp shape.tiled
    rw [← size] at aligned after
    exact tiled_append.mpr ⟨mid, before, addr.trans at_mid, aligned, after⟩
  · rw [sizes]
    apply mem_middle
    · rw [addr, size]
      exact shape.sizes b (by simp)
    · intro c hc
      exact shape.sizes c (by simp; tauto)
  · rw [freeList_append, chain_append]
    refine ⟨path.congr nodup ?_, chain⟩
    intro a ha other
    apply link a _ other
    rintro rfl
    rcases List.mem_cons.mp ha with h | h
    · exact (shape.inside (b := b) (by simp)).2.2.2.1 h
    · obtain ⟨c, hc, -, eq⟩ := mem_freeList.mp h
      exact shape.other (.inl hc) eq
  · apply mem_middle
    · rw [addr]
      exact owner
    · intro c hc live
      have mem : c ∈ xs ++ b :: ys := by simp; tauto
      rw [link _ (shape.other hc) (shape.live_ne_last mem live fun d hd => by simp [hd])]
      exact shape.owner c mem live
  · rw [sizes]
    exact shape.header

end Facts

/-! ### Allocation -/

section Alloc

variable {A : Arena} {s : Headers} {b : Block} {bs xs ys : List Block} {n : Nat}

/-- The search takes the first free block that is large enough, if there is one. -/
def Search (A : Arena) (s : Headers) (n q : Nat) (bs : List Block) (r : Option (Nat × Headers)) :
    Prop :=
  ((∀ b ∈ bs, b.free = true → b.size < n) ∧ r = some (0, s)) ∨
    ∃ xs b ys, bs = xs ++ b :: ys ∧ b.free = true ∧ n ≤ b.size ∧
      (∀ c ∈ xs, c.free = true → c.size < n) ∧
      r = some (b.addr + headerSize, takeBlock A s (lastOf q (freeList xs)) b.addr n)

/-- A block the search passes. -/
theorem Search.cons {q q' : Nat} {r : Option (Nat × Headers)} (search : Search A s n q' bs r)
    (small : b.free = true → b.size < n)
    (same : ∀ xs, lastOf q (freeList (b :: xs)) = lastOf q' (freeList xs)) :
    Search A s n q (b :: bs) r := by
  have passed : ∀ xs : List Block, (∀ c ∈ xs, c.free = true → c.size < n) →
      ∀ c ∈ b :: xs, c.free = true → c.size < n := by
    intro xs none c hc
    rcases List.mem_cons.mp hc with rfl | hc
    · exact small
    · exact none c hc
  rcases search with ⟨none, result⟩ | ⟨xs, c, ys, rfl, free, large, none, result⟩
  · left
    exact ⟨passed bs none, result⟩
  · right
    refine ⟨b :: xs, c, ys, rfl, free, large, passed xs none, ?_⟩
    rw [same, result]

theorem allocLoop_next {q h fuel : Nat} (first : s.link q = h) (pos : 0 < h) :
    allocLoop A s n (fuel + 1) q =
      if n ≤ s.size h then some (h + headerSize, takeBlock A s q h n) else allocLoop A s n fuel h := by
  have nonzero : s.link q ≠ 0 := by
    rw [first]
    exact pos.ne'
  rw [allocLoop, if_pos nonzero]
  simp only [first]

theorem search_allocLoop (sizes : ∀ b ∈ bs, s.size b.addr = b.size) (pos : ∀ b ∈ bs, 0 < b.addr)
    {q fuel : Nat} (chain : Chain 0 s.link q (freeList bs)) (enough : bs.length < fuel) :
    Search A s n q bs (allocLoop A s n fuel q) := by
  induction bs generalizing q fuel with
  | nil =>
      obtain ⟨fuel, rfl⟩ : ∃ k, fuel = k + 1 := ⟨fuel - 1, by simp at enough; omega⟩
      left
      constructor
      · simp
      · rw [allocLoop, if_neg (not_not.mpr (chain_nil.mp chain))]
  | cons b bs ih =>
      rw [List.length_cons] at enough
      have sizes' : ∀ c ∈ bs, s.size c.addr = c.size :=
        fun c hc => sizes c (List.mem_cons_of_mem _ hc)
      have pos' : ∀ c ∈ bs, 0 < c.addr := fun c hc => pos c (List.mem_cons_of_mem _ hc)
      cases free : b.free with
      | false =>
          rw [freeList_cons_live free] at chain
          apply (ih sizes' pos' chain (by omega)).cons
          · intro h
            exact absurd (free.symm.trans h) (by simp)
          · intro xs
            rw [freeList_cons_live free]
      | true =>
          rw [freeList_cons_free free, chain_cons] at chain
          obtain ⟨fuel, rfl⟩ : ∃ k, fuel = k + 1 := ⟨fuel - 1, by omega⟩
          rw [allocLoop_next chain.1 (pos b List.mem_cons_self), sizes b List.mem_cons_self]
          by_cases large : n ≤ b.size
          · right
            rw [if_pos large]
            exact ⟨[], b, bs, rfl, free, large, by simp, rfl⟩
          · rw [if_neg large]
            apply (ih sizes' pos' chain.2 (by omega)).cons
            · intro _
              omega
            · intro xs
              rw [freeList_cons_free free]
              rfl

/-- More rounds than needed change nothing. -/
theorem allocLoop_mono {q k m : Nat} {r : Nat × Headers} (le : k ≤ m)
    (result : allocLoop A s n k q = some r) : allocLoop A s n m q = some r := by
  induction k generalizing m q with
  | zero => exact absurd result (by simp [allocLoop])
  | succ k ih =>
      obtain ⟨m, rfl⟩ : ∃ j, m = j + 1 := ⟨m - 1, by omega⟩
      rw [allocLoop] at result ⊢
      simp only at result ⊢
      split_ifs at result ⊢ with more large
      · exact result
      · exact ih (by omega) result
      · exact result

/-- The layout after a block is taken as it is. -/
def taken (b : Block) : Block := { b with free := false }

/-- The layout after the front of a block is taken. -/
def front (b : Block) (n : Nat) : Block := ⟨b.addr, n, false⟩

def remainder (b : Block) (n : Nat) : Block :=
  ⟨b.addr + headerSize + n, b.size - headerSize - n, true⟩

/-- What `takeBlock` leaves for the block `b`. -/
def split (b : Block) (n : Nat) : List Block :=
  if b.size < n + headerSize then [taken b] else [front b n, remainder b n]

theorem apart_live {c : Block} (live : b.free = false) : Apart b c ∧ Apart c b := by
  constructor
  · rintro ⟨h, -⟩
    exact absurd (live.symm.trans h) (by simp)
  · rintro ⟨-, h⟩
    exact absurd (live.symm.trans h) (by simp)

/-- A live block may stand next to any. -/
theorem isChain_live (left : xs.IsChain Apart) (right : ys.IsChain Apart) (live : b.free = false) :
    (xs ++ b :: ys).IsChain Apart := by
  apply List.isChain_append.mpr
  refine ⟨left, ?_, ?_⟩
  · cases ys with
    | nil => exact .singleton b
    | cons y ys => exact .cons_cons (apart_live live).1 right
  · intro c _ d hd
    rw [List.head?_cons, Option.mem_some_iff] at hd
    exact hd ▸ (apart_live live).2

theorem Shape.room (shape : Shape A s bs) (mem : b ∈ bs) (le : n ≤ b.size) :
    (n + headerSize) % 4294967296 = n + headerSize := by
  obtain ⟨pos, -, hi, -⟩ := shape.inside mem
  have := A.bound
  apply Nat.mod_eq_of_lt
  unfold headerSize at *
  omega

/-- A free block is linked out of the free list and marked with its heap. -/
theorem shape_take (shape : Shape A s (xs ++ b :: ys)) (free : b.free = true) :
    Shape A ((s.setLink (lastOf A.h_free (freeList xs)) (s.link b.addr)).setLink b.addr A.heapp)
      (xs ++ taken b :: ys) := by
  obtain ⟨-, -, chain⟩ := shape.chain_split
  rw [freeList_cons_free free, chain_cons] at chain
  obtain ⟨last_b, last_ys⟩ := shape.lastOf_ne
  have link : ∀ a, a ≠ b.addr → a ≠ lastOf A.h_free (freeList xs) →
      ((s.setLink (lastOf A.h_free (freeList xs)) (s.link b.addr)).setLink b.addr A.heapp).link a =
        s.link a := by
    intro a other other'
    exact (Function.update_of_ne other _ _).trans (Function.update_of_ne other' _ _)
  apply shape.relabel (taken b) rfl rfl
  · rfl
  · exact link
  · intro _
    exact Function.update_self _ _ _
  · rw [freeList_cons_live (b := taken b) rfl]
    apply chain.2.relink
    · exact (Function.update_of_ne last_b _ _).trans (Function.update_self _ _ _)
    · intro a ha
      obtain ⟨c, hc, -, rfl⟩ := mem_freeList.mp ha
      exact link _ (shape.other (.inr hc)) (last_ys c hc).symm

/-- The cut of a free block into two. -/
def cutBlock (s : Headers) (hp n : Nat) : Headers :=
  let fp := hp + headerSize + n
  let s := s.setLink fp (s.link hp)
  let s := s.setSize fp (s.size hp - headerSize - n)
  (s.setLink hp fp).setSize hp n

theorem shape_cut (shape : Shape A s (xs ++ b :: ys)) (free : b.free = true)
    (fits : n + headerSize ≤ b.size) (aligned : 8 ∣ n) :
    Shape A (cutBlock s b.addr n) (xs ++ ⟨b.addr, n, true⟩ :: remainder b n :: ys) := by
  have here := shape.sizes b (by simp)
  have inside := shape.inside (b := b) (by simp)
  have fp_b : b.addr + headerSize + n ≠ b.addr := by
    unfold headerSize
    omega
  have others : ∀ c, c ∈ xs ∨ c ∈ ys → c.addr ≠ b.addr ∧ c.addr ≠ b.addr + headerSize + n := by
    intro c hc
    refine ⟨shape.other hc, ?_⟩
    rcases hc with hc | hc
    · have := shape.before hc
      unfold headerSize at *
      omega
    · have := shape.after hc
      unfold headerSize at *
      omega
  have outside : ∀ a, a ≠ b.addr → a ≠ b.addr + headerSize + n →
      (cutBlock s b.addr n).link a = s.link a ∧ (cutBlock s b.addr n).size a = s.size a := by
    intro a h h'
    constructor
    · exact (Function.update_of_ne h _ _).trans (Function.update_of_ne h' _ _)
    · exact (Function.update_of_ne h _ _).trans (Function.update_of_ne h' _ _)
  have h_free : A.h_free ≠ b.addr ∧ A.h_free ≠ b.addr + headerSize + n := by
    have := A.apart
    unfold Arena.h_free headerSize at *
    omega
  have size_b : (cutBlock s b.addr n).size b.addr = n := Function.update_self _ _ _
  have size_fp : (cutBlock s b.addr n).size (b.addr + headerSize + n) =
      b.size - headerSize - n := by
    rw [← here]
    exact (Function.update_of_ne fp_b _ _).trans (Function.update_self _ _ _)
  obtain ⟨-, -, chain⟩ := shape.chain_split
  rw [freeList_cons_free free, chain_cons] at chain
  have whole : Shape A s (xs ++ ([b] ++ ys)) := shape
  change Shape A (cutBlock s b.addr n) (xs ++ ([⟨b.addr, n, true⟩, remainder b n] ++ ys))
  apply whole.splice
  · intro c hc
    exact outside _ (others c hc).1 (others c hc).2
  · exact outside _ h_free.1 h_free.2
  · obtain ⟨mid, before, addr, div, after⟩ := tiled_append.mp shape.tiled
    refine tiled_append.mpr ⟨mid, before, addr, aligned, ?_, ?_, ?_⟩
    · rw [← addr]
      rfl
    · change 8 ∣ b.size - headerSize - n
      unfold headerSize
      omega
    · change Tiled _ (mid + headerSize + n + headerSize + (b.size - headerSize - n)) ys
      have sum : mid + headerSize + n + headerSize + (b.size - headerSize - n) =
          mid + headerSize + b.size := by omega
      rw [sum]
      exact after
  · intro c hc
    rcases List.mem_cons.mp hc with rfl | hc
    · exact ⟨rfl, size_b⟩
    · rw [List.mem_singleton] at hc
      subst hc
      exact ⟨rfl, size_fp⟩
  · intro kept
    rw [List.cons_append, List.singleton_append, freeList_cons_free rfl, freeList_cons_free rfl,
      chain_cons, chain_cons]
    refine ⟨kept.trans chain.1, Function.update_self _ _ _, ?_⟩
    apply chain.2.relink
    · exact (Function.update_of_ne fp_b _ _).trans (Function.update_self _ _ _)
    · intro a ha
      obtain ⟨c, hc, -, rfl⟩ := mem_freeList.mp ha
      exact (outside _ (others c (.inr hc)).1 (others c (.inr hc)).2).1

/-- `takeBlock` is the cut, if there is one, and the block linked out. -/
theorem takeBlock_eq (shape : Shape A s (xs ++ b :: ys)) (le : n ≤ b.size) :
    takeBlock A s (lastOf A.h_free (freeList xs)) b.addr n =
      if b.size < n + headerSize then
        (s.setLink (lastOf A.h_free (freeList xs)) (s.link b.addr)).setLink b.addr A.heapp
      else ((cutBlock s b.addr n).setLink (lastOf A.h_free (freeList xs))
        ((cutBlock s b.addr n).link b.addr)).setLink b.addr A.heapp := by
  have here := shape.sizes b (by simp)
  have room := shape.room (b := b) (by simp) le
  unfold takeBlock
  simp only [here, room]
  by_cases small : b.size < n + headerSize
  · rw [if_pos small, if_pos small]
  · rw [if_neg small, if_neg small]
    have link_b : (cutBlock s b.addr n).link b.addr = b.addr + headerSize + n :=
      Function.update_self _ _ _
    rw [link_b]
    unfold cutBlock
    simp only [Headers.setLink, Headers.setSize, here]
    congr 1
    funext a
    by_cases h : a = b.addr
    · rw [h, Function.update_self, Function.update_self]
    · rw [Function.update_of_ne h, Function.update_of_ne h]
      by_cases h' : a = lastOf A.h_free (freeList xs)
      · rw [h', Function.update_self, Function.update_self]
      · rw [Function.update_of_ne h', Function.update_of_ne h', Function.update_of_ne h]

/-- The layout after an allocation. -/
theorem layout_takeBlock (layout : Layout A s (xs ++ b :: ys)) (free : b.free = true)
    (le : n ≤ b.size) (aligned : 8 ∣ n) :
    Layout A (takeBlock A s (lastOf A.h_free (freeList xs)) b.addr n) (xs ++ split b n ++ ys) := by
  obtain ⟨left, right, -⟩ := List.isChain_append.mp layout.apart
  rw [takeBlock_eq layout.toShape le, split]
  split_ifs with small
  · constructor
    · rw [List.append_assoc]
      exact shape_take layout.toShape free
    · rw [List.append_assoc]
      exact isChain_live left right.tail rfl
  · have cut := shape_cut layout.toShape free (by omega) aligned
    constructor
    · rw [List.append_assoc]
      exact shape_take cut rfl
    · rw [List.append_assoc]
      apply isChain_live (b := front b n) left _ rfl
      cases ys with
      | nil => exact .singleton _
      | cons y ys =>
          -- the block after a free one is live
          have live : Apart b y := (List.isChain_cons_cons.mp right).1
          apply List.IsChain.cons_cons _ right.tail
          rintro ⟨-, h⟩
          exact live ⟨free, h⟩

end Alloc

/-! ### Release -/

section Free

variable {A : Arena} {s : Headers} {b c : Block} {bs xs ys : List Block}

/-- The block, free. -/
def given (b : Block) : Block := { b with free := true }

/-- A live block is linked into the free list. -/
theorem shape_give (shape : Shape A s (xs ++ b :: ys)) (live : b.free = false) :
    Shape A ((s.setLink b.addr (s.link (lastOf A.h_free (freeList xs)))).setLink
      (lastOf A.h_free (freeList xs)) b.addr) (xs ++ given b :: ys) := by
  obtain ⟨-, -, chain⟩ := shape.chain_split
  rw [freeList_cons_live live] at chain
  obtain ⟨last_b, last_ys⟩ := shape.lastOf_ne
  have link : ∀ a, a ≠ b.addr → a ≠ lastOf A.h_free (freeList xs) →
      ((s.setLink b.addr (s.link (lastOf A.h_free (freeList xs)))).setLink
        (lastOf A.h_free (freeList xs)) b.addr).link a = s.link a := by
    intro a other other'
    exact (Function.update_of_ne other' _ _).trans (Function.update_of_ne other _ _)
  apply shape.relabel (given b) rfl rfl
  · rfl
  · exact link
  · intro h
    exact absurd h (by simp [given])
  · rw [freeList_cons_free (b := given b) rfl, chain_cons]
    refine ⟨Function.update_self _ _ _, ?_⟩
    apply chain.relink
    · exact (Function.update_of_ne last_b.symm _ _).trans (Function.update_self _ _ _)
    · intro a ha
      obtain ⟨c, hc, -, rfl⟩ := mem_freeList.mp ha
      exact link _ (shape.other (.inr hc)) (last_ys c hc).symm

/-- Merge the block `p` with the next on the free list. -/
def mergeBlock (s : Headers) (p : Nat) : Headers :=
  let s := s.setSize p (s.size p + (s.size (s.link p) + headerSize))
  s.setLink p (s.link (s.link p))

def merged (b c : Block) : Block := ⟨b.addr, b.size + (c.size + headerSize), true⟩

theorem shape_merge (shape : Shape A s (xs ++ b :: c :: ys)) (free_b : b.free = true)
    (free_c : c.free = true) : Shape A (mergeBlock s b.addr) (xs ++ merged b c :: ys) := by
  obtain ⟨-, -, chain⟩ := shape.chain_split
  rw [freeList_cons_free free_b, freeList_cons_free free_c, chain_cons, chain_cons] at chain
  obtain ⟨enter, next, chain⟩ := chain
  have sizes_b := shape.sizes b (by simp)
  have sizes_c := shape.sizes c (by simp)
  have others : ∀ d, d ∈ xs ∨ d ∈ ys → d.addr ≠ b.addr := by
    intro d hd
    apply shape.other
    rw [List.mem_cons]
    tauto
  have outside : ∀ a, a ≠ b.addr →
      (mergeBlock s b.addr).link a = s.link a ∧ (mergeBlock s b.addr).size a = s.size a := by
    intro a h
    exact ⟨Function.update_of_ne h _ _, Function.update_of_ne h _ _⟩
  have link_b : (mergeBlock s b.addr).link b.addr = s.link c.addr := by
    rw [← next]
    exact Function.update_self _ _ _
  have size_b : (mergeBlock s b.addr).size b.addr = b.size + (c.size + headerSize) := by
    rw [← sizes_b, ← sizes_c, ← next]
    exact Function.update_self _ _ _
  have h_free : A.h_free ≠ b.addr := (shape.inside (b := b) (by simp)).2.2.2.1.symm
  have apart : Shape A s (xs ++ ([b, c] ++ ys)) := shape
  change Shape A (mergeBlock s b.addr) (xs ++ ([merged b c] ++ ys))
  apply apart.splice
  · intro d hd
    exact outside _ (others d hd)
  · exact outside _ h_free
  · obtain ⟨mid, before, addr, div_b, addr_c, div_c, after⟩ := tiled_append.mp shape.tiled
    refine tiled_append.mpr ⟨mid, before, addr, ?_, ?_⟩
    · change 8 ∣ b.size + (c.size + headerSize)
      unfold headerSize
      omega
    · have sum : mid + headerSize + b.size + headerSize + c.size =
          mid + headerSize + (merged b c).size := by
        change _ = mid + headerSize + (b.size + (c.size + headerSize))
        omega
      change Tiled _ (mid + headerSize + (merged b c).size) ys
      rw [← sum]
      exact after
  · intro d hd
    rw [List.mem_singleton] at hd
    subst hd
    exact ⟨rfl, size_b⟩
  · intro kept
    rw [List.singleton_append, freeList_cons_free rfl, chain_cons]
    refine ⟨kept.trans enter, ?_⟩
    apply chain.relink link_b
    intro a ha
    obtain ⟨d, hd, -, rfl⟩ := mem_freeList.mp ha
    exact (outside _ (others d (.inr hd))).1

/-- The test for a merge with the next block. -/
theorem limit_next (shape : Shape A s (xs ++ b :: ys)) (free : b.free = true) :
    s.limit b.addr = s.link b.addr ↔ ∃ c zs, ys = c :: zs ∧ c.free = true := by
  obtain ⟨-, -, chain⟩ := shape.chain_split
  rw [freeList_cons_free free, chain_cons] at chain
  obtain ⟨-, chain⟩ := chain
  have limit : s.limit b.addr = b.addr + headerSize + b.size := by
    rw [Headers.limit, shape.sizes b (by simp)]
  have inside := shape.inside (b := b) (by simp)
  rw [limit]
  cases ys with
  | nil =>
      rw [chain_nil.mp chain]
      constructor
      · intro h
        unfold headerSize at h
        omega
      · rintro ⟨c, zs, h, -⟩
        exact absurd h (by simp)
  | cons c zs =>
      obtain ⟨mid, -, addr, -, addr_c, -⟩ := tiled_append.mp shape.tiled
      cases free_c : c.free with
      | true =>
          rw [freeList_cons_free free_c, chain_cons] at chain
          constructor
          · intro _
            exact ⟨c, zs, rfl, free_c⟩
          · intro _
            rw [chain.1, addr_c, addr]
      | false =>
          rw [freeList_cons_live free_c] at chain
          constructor
          · intro h
            -- the next free block is after the live one
            exfalso
            cases first : freeList zs with
            | nil =>
                rw [first, chain_nil] at chain
                unfold headerSize at h
                omega
            | cons a as =>
                rw [first, chain_cons] at chain
                obtain ⟨d, hd, -, rfl⟩ := mem_freeList.mp (first ▸ List.mem_cons_self)
                have shape' : Shape A s ((xs ++ [b]) ++ c :: zs) := by simpa using shape
                have := shape'.after hd
                unfold headerSize at *
                omega
          · rintro ⟨d, es, eq, free_d⟩
            obtain ⟨rfl, -⟩ := List.cons.inj eq
            exact absurd (free_c.symm.trans free_d) (by simp)

/-- The test for a merge with the previous block. -/
theorem limit_last (shape : Shape A s (xs ++ b :: ys)) :
    s.limit (lastOf A.h_free (freeList xs)) = b.addr ↔ ∃ zs d, xs = zs ++ [d] ∧ d.free = true := by
  have inside := shape.inside (b := b) (by simp)
  rcases List.eq_nil_or_concat xs with rfl | ⟨zs, d, rfl⟩
  · have limit : s.limit A.h_free = A.h_free + headerSize := by
      rw [Headers.limit, shape.header]
      rfl
    constructor
    · intro h
      change s.limit A.h_free = b.addr at h
      rw [limit] at h
      have := A.apart
      unfold Arena.h_free headerSize at *
      omega
    · rintro ⟨zs, d, h, -⟩
      exact absurd h (by simp)
  · rw [List.concat_eq_append] at shape ⊢
    rw [List.append_assoc] at shape
    have size_d := shape.sizes d (by simp)
    obtain ⟨mid, -, addr_d, -, addr_b, -⟩ := tiled_append.mp shape.tiled
    cases free : d.free with
    | true =>
        have last : lastOf A.h_free (freeList (zs ++ [d])) = d.addr := by
          rw [freeList_append, freeList_cons_free free]
          exact lastOf_concat _ _ _
        constructor
        · intro _
          exact ⟨zs, d, rfl, free⟩
        · intro _
          rw [last, Headers.limit, size_d, addr_b, addr_d]
    | false =>
        have last : lastOf A.h_free (freeList (zs ++ [d])) = lastOf A.h_free (freeList zs) := by
          rw [freeList_append, freeList_cons_live free]
          exact congrArg _ (List.append_nil _)
        rw [last]
        constructor
        · intro h
          exfalso
          rcases List.mem_cons.mp (lastOf_mem A.h_free (freeList zs)) with head | mem
          · rw [head, Headers.limit, shape.header] at h
            have := A.apart
            unfold Arena.h_free headerSize at *
            omega
          · obtain ⟨e, he, -, eq⟩ := mem_freeList.mp mem
            have before := shape.before he
            rw [← eq, Headers.limit, shape.sizes e (by simp [he])] at h
            unfold headerSize at *
            omega
        · rintro ⟨zs', d', eq, free'⟩
          obtain ⟨-, eq⟩ := List.append_inj' eq rfl
          obtain rfl := List.singleton_inj.mp eq
          exact absurd (free.symm.trans free') (by simp)

/-- The same live blocks. -/
def SameLive (bs cs : List Block) : Prop := ∀ c : Block, c.free = false → (c ∈ bs ↔ c ∈ cs)

/-- The merge with the next block, if it is free. -/
theorem merge_next (shape : Shape A s (xs ++ b :: ys)) (free : b.free = true)
    (right : ys.IsChain Apart) :
    ∃ b' zs, Shape A (if s.limit b.addr = s.link b.addr then mergeBlock s b.addr else s) (xs ++ b' :: zs) ∧
      b'.addr = b.addr ∧ b'.free = true ∧ (b' :: zs).IsChain Apart ∧ SameLive zs ys := by
  by_cases next : ∃ c zs, ys = c :: zs ∧ c.free = true
  · rw [if_pos ((limit_next shape free).mpr next)]
    obtain ⟨c, zs, rfl, free_c⟩ := next
    refine ⟨merged b c, zs, shape_merge shape free free_c, rfl, rfl, ?_, ?_⟩
    · cases zs with
      | nil => exact .singleton _
      | cons d zs =>
          apply List.IsChain.cons_cons _ right.tail
          rintro ⟨-, h⟩
          exact (List.isChain_cons_cons.mp right).1 ⟨free_c, h⟩
    · intro d live
      constructor
      · exact List.mem_cons_of_mem _
      · intro h
        rcases List.mem_cons.mp h with rfl | h
        · exact absurd (free_c.symm.trans live) (by simp)
        · exact h
  · rw [if_neg fun h => next ((limit_next shape free).mp h)]
    refine ⟨b, ys, shape, rfl, free, ?_, fun _ _ => Iff.rfl⟩
    cases ys with
    | nil => exact .singleton _
    | cons c zs =>
        apply List.IsChain.cons_cons _ right
        rintro ⟨-, h⟩
        exact next ⟨c, zs, rfl, h⟩

/-- The merge with the previous block, if it is free. -/
theorem merge_last (shape : Shape A s (xs ++ b :: ys)) (free : b.free = true)
    (left : xs.IsChain Apart) (right : (b :: ys).IsChain Apart) :
    ∃ bs, Layout A (if s.limit (lastOf A.h_free (freeList xs)) = b.addr
        then mergeBlock s (lastOf A.h_free (freeList xs)) else s) bs ∧ SameLive bs (xs ++ ys) := by
  by_cases last : ∃ zs d, xs = zs ++ [d] ∧ d.free = true
  · rw [if_pos ((limit_last shape).mpr last)]
    obtain ⟨zs, d, rfl, free_d⟩ := last
    rw [List.append_assoc] at shape
    have addr : lastOf A.h_free (freeList (zs ++ [d])) = d.addr := by
      rw [freeList_append, freeList_cons_free free_d]
      exact lastOf_concat _ _ _
    rw [addr]
    obtain ⟨left', -, seam⟩ := List.isChain_append.mp left
    refine ⟨zs ++ merged d b :: ys, ⟨shape_merge shape free_d free, ?_⟩, ?_⟩
    · apply List.isChain_append.mpr
      refine ⟨left', ?_, ?_⟩
      · cases ys with
        | nil => exact .singleton _
        | cons e ys =>
            apply List.IsChain.cons_cons _ right.tail
            rintro ⟨-, h⟩
            exact (List.isChain_cons_cons.mp right).1 ⟨free, h⟩
      · intro e he f hf
        rw [List.head?_cons, Option.mem_some_iff] at hf
        rintro ⟨h, -⟩
        exact seam e he d rfl ⟨h, free_d⟩
    · intro e live
      have other : ∀ f : Block, f.free = true → e ≠ f := fun f => ne_of_live live
      simp only [List.mem_append, List.mem_cons, List.not_mem_nil, or_false, other d free_d,
        other (merged d b) rfl, false_or]
  · rw [if_neg fun h => last ((limit_last shape).mp h)]
    refine ⟨xs ++ b :: ys, ⟨shape, ?_⟩, ?_⟩
    · apply List.isChain_append.mpr
      refine ⟨left, right, ?_⟩
      intro d hd e _
      rintro ⟨h, -⟩
      obtain ⟨zs, rfl⟩ := List.getLast?_eq_some_iff.mp hd
      exact last ⟨zs, d, rfl, h⟩
    · intro e live
      have other : e ≠ b := ne_of_live live free
      simp only [List.mem_append, List.mem_cons, other, false_or]

/-- `insertAfter` up to the merge with the previous block. -/
def insertNext (s : Headers) (qp hp : Nat) : Headers :=
  let s := (s.setLink hp (s.link qp)).setLink qp hp
  if s.limit hp = s.link hp then mergeBlock s hp else s

theorem insertAfter_eq {qp hp : Nat} (link : (insertNext s qp hp).link qp = hp) :
    insertAfter s qp hp =
      if (insertNext s qp hp).limit qp = hp then mergeBlock (insertNext s qp hp) qp
      else insertNext s qp hp := by
  have merge : mergeBlock (insertNext s qp hp) qp =
      ((insertNext s qp hp).setSize qp ((insertNext s qp hp).size qp +
        ((insertNext s qp hp).size hp + headerSize))).setLink qp
          ((insertNext s qp hp).link hp) := by
    unfold mergeBlock
    simp only [link]
    congr 1
    change (insertNext s qp hp).link ((insertNext s qp hp).link qp) = _
    rw [link]
  rw [merge]
  rfl

/-- The layout after a release. -/
theorem layout_insertAfter (layout : Layout A s (xs ++ b :: ys)) (live : b.free = false) :
    ∃ bs, Layout A (insertAfter s (lastOf A.h_free (freeList xs)) b.addr) bs ∧
      SameLive bs (xs ++ ys) := by
  obtain ⟨left, right, -⟩ := List.isChain_append.mp layout.apart
  have shape := shape_give layout.toShape live
  obtain ⟨b', zs, shape', addr, free', right', same⟩ := merge_next shape rfl right.tail
  obtain ⟨bs, layout', same'⟩ := merge_last shape' free' left right'
  refine ⟨bs, ?_, ?_⟩
  · rw [addr] at layout'
    have link : (insertNext s (lastOf A.h_free (freeList xs)) b.addr).link
        (lastOf A.h_free (freeList xs)) = b.addr := by
      obtain ⟨-, -, chain⟩ := shape'.chain_split
      rw [freeList_cons_free free', chain_cons, addr] at chain
      exact chain.1
    rw [insertAfter_eq link]
    exact layout'
  · intro c hc
    rw [same' c hc, List.mem_append, List.mem_append, same c hc]

/-- The search of `chHeapFree` stops at the last free block before `hp`. -/
theorem freeLoop_spec {q h_free hp fuel : Nat} (ys : List Block)
    (chain : Chain 0 s.link q (freeList (xs ++ ys))) (start : q = h_free ∨ q < hp)
    (before : ∀ c ∈ xs, 0 < c.addr ∧ c.addr < hp) (after : ∀ c ∈ ys, hp < c.addr)
    (enough : xs.length < fuel) :
    freeLoop h_free s hp fuel q = some (insertAfter s (lastOf q (freeList xs)) hp) := by
  induction xs generalizing q fuel with
  | nil =>
      obtain ⟨fuel, rfl⟩ : ∃ k, fuel = k + 1 := ⟨fuel - 1, by simp at enough; omega⟩
      have here : s.link q = 0 ∨ hp < s.link q := by
        rw [List.nil_append] at chain
        cases first : freeList ys with
        | nil =>
            rw [first, chain_nil] at chain
            exact .inl chain
        | cons a as =>
            rw [first, chain_cons] at chain
            obtain ⟨c, hc, -, rfl⟩ := mem_freeList.mp (first ▸ List.mem_cons_self)
            rw [chain.1]
            exact .inr (after c hc)
      rw [freeLoop, if_pos ⟨start, here⟩]
      rfl
  | cons c xs ih =>
      rw [List.length_cons] at enough
      have before' : ∀ d ∈ xs, 0 < d.addr ∧ d.addr < hp := fun d hd =>
        before d (List.mem_cons_of_mem _ hd)
      obtain ⟨pos, lt⟩ := before c List.mem_cons_self
      cases free : c.free with
      | false =>
          rw [List.cons_append, freeList_cons_live free] at chain
          rw [freeList_cons_live free]
          exact ih chain start before' (by omega)
      | true =>
          rw [List.cons_append, freeList_cons_free free, chain_cons] at chain
          obtain ⟨first, chain⟩ := chain
          obtain ⟨fuel, rfl⟩ : ∃ k, fuel = k + 1 := ⟨fuel - 1, by omega⟩
          have past : ¬ ((q = h_free ∨ q < hp) ∧ (s.link q = 0 ∨ hp < s.link q)) := by
            rw [first]
            omega
          rw [freeLoop, if_neg past, first, freeList_cons_free free]
          exact ih chain (.inr lt) before' (by omega)

theorem freeLoop_mono {q h_free hp k m : Nat} {r : Headers} (le : k ≤ m)
    (result : freeLoop h_free s hp k q = some r) : freeLoop h_free s hp m q = some r := by
  induction k generalizing m q with
  | zero => exact absurd result (by simp [freeLoop])
  | succ k ih =>
      obtain ⟨m, rfl⟩ : ∃ j, m = j + 1 := ⟨m - 1, by omega⟩
      rw [freeLoop] at result ⊢
      split_ifs at result ⊢ with here
      · exact result
      · exact ih (by omega) result

/-- `chHeapFree` of a live block inserts it after the last free block before it. -/
theorem chHeapFree_eq (layout : Layout A s (xs ++ b :: ys)) (live : b.free = false) {fuel : Nat}
    (enough : xs.length < fuel) :
    chHeapFree s fuel (b.addr + headerSize) =
      some (insertAfter s (lastOf A.h_free (freeList xs)) b.addr) := by
  have owner := layout.owner b (by simp) live
  have addr : b.addr + headerSize - headerSize = b.addr := by omega
  rw [chHeapFree, addr, owner]
  apply freeLoop_spec ys
  · have chain := layout.chain
    rw [freeList_append, freeList_cons_live live, ← freeList_append] at chain
    exact chain
  · exact .inl rfl
  · intro c hc
    have := layout.before hc
    have := layout.inside (b := c) (by simp [hc])
    unfold headerSize at *
    omega
  · intro c hc
    have := layout.after hc
    unfold headerSize at this
    omega
  · exact enough

/-- `chHeapFree` of a live block returns and releases it. -/
theorem layout_chHeapFree (layout : Layout A s bs) (mem : b ∈ bs) (live : b.free = false)
    {fuel : Nat} (enough : bs.length < fuel) :
    ∃ s' cs, chHeapFree s fuel (b.addr + headerSize) = some s' ∧ Layout A s' cs ∧
      ∀ c : Block, c.free = false → (c ∈ cs ↔ c ∈ bs ∧ c ≠ b) := by
  obtain ⟨xs, ys, rfl⟩ := List.append_of_mem mem
  obtain ⟨cs, layout', same⟩ := layout_insertAfter layout live
  refine ⟨_, cs, ?_, layout', ?_⟩
  · rw [List.length_append] at enough
    exact chHeapFree_eq layout live (by omega)
  · intro c hc
    have nodup : (xs ++ b :: ys).Nodup := layout.tiled.nodup.of_map _
    obtain ⟨fresh, -⟩ := List.nodup_cons.mp (List.nodup_middle.mp nodup)
    rw [same c hc]
    constructor
    · intro h
      refine ⟨by simp at h ⊢; tauto, ?_⟩
      rintro rfl
      exact fresh h
    · rintro ⟨h, other⟩
      simp at h ⊢
      tauto

/-- A release that returned has inserted the block. -/
theorem released_of_result {s' : Headers} {fuel : Nat} (layout : Layout A s bs) (mem : b ∈ bs)
    (live : b.free = false) (result : chHeapFree s fuel (b.addr + headerSize) = some s') :
    (∃ xs ys, bs = xs ++ b :: ys ∧ s' = insertAfter s (lastOf A.h_free (freeList xs)) b.addr) ∧
      ∃ cs, Layout A s' cs ∧ ∀ c : Block, c.free = false → (c ∈ cs ↔ c ∈ bs ∧ c ≠ b) := by
  have more : chHeapFree s (fuel + (bs.length + 1)) (b.addr + headerSize) = some s' :=
    freeLoop_mono (Nat.le_add_right _ _) result
  have enough : bs.length < fuel + (bs.length + 1) := by omega
  constructor
  · obtain ⟨xs, ys, rfl⟩ := List.append_of_mem mem
    rw [List.length_append] at more enough
    have inserted := chHeapFree_eq layout live (lt_of_le_of_lt (Nat.le_add_right _ _) enough)
    exact ⟨xs, ys, rfl, Option.some.inj (more.symm.trans inserted)⟩
  · obtain ⟨s'', cs, freed, layout', same⟩ := layout_chHeapFree layout mem live enough
    obtain rfl : s' = s'' := Option.some.inj (more.symm.trans freed)
    exact ⟨cs, layout', same⟩

end Free

/-! ### Whole runs -/

section Runs

variable {A : Arena} {s s' : Sys} {bs : List Block}

/-- The layout of a state, with the live blocks those handed out. -/
structure Inv (A : Arena) (s : Sys) (bs : List Block) : Prop extends Layout A s.heap bs where
  live : ∀ l ∈ s.live, (⟨l.header, l.granted, false⟩ : Block) ∈ bs ∧ l.requested ≤ l.granted
  known : ∀ b ∈ bs, b.free = false → ∃ l ∈ s.live, l.header = b.addr
  distinct : (s.live.map (·.header)).Nodup

theorem layout_init (A : Arena) (h : Headers) :
    Layout A (chHeapObjectInit A h) [⟨A.base, A.size - headerSize, true⟩] := by
  have other : A.h_free ≠ A.base := by
    have := A.apart
    have := A.fits
    unfold Arena.h_free headerSize at *
    omega
  constructor
  · constructor
    · have := A.fits
      have := A.size_aligned
      refine ⟨rfl, ?_, ?_⟩
      · change 8 ∣ A.size - headerSize
        unfold headerSize
        omega
      · change A.base + headerSize + (A.size - headerSize) = A.base + A.size
        omega
    · intro b hb
      rw [List.mem_singleton.mp hb]
      exact Function.update_self _ _ _
    · change Chain 0 _ A.h_free [A.base]
      rw [chain_cons, chain_nil]
      constructor
      · exact (Function.update_of_ne other _ _).trans (Function.update_self _ _ _)
      · exact Function.update_self _ _ _
    · intro b hb live
      rw [List.mem_singleton.mp hb] at live
      exact absurd live (by simp)
    · exact (Function.update_of_ne other _ _).trans (Function.update_self _ _ _)
  · exact .singleton _

/-- What is written elsewhere does not matter. -/
theorem Layout.congr {h h' : Headers} (layout : Layout A h bs)
    (same : ∀ a, a = A.h_free ∨
      (∃ b ∈ bs, b.addr = a) → h'.link a = h.link a ∧ h'.size a = h.size a) :
    Layout A h' bs := by
  constructor
  · constructor
    · exact layout.tiled
    · intro b hb
      rw [(same _ (.inr ⟨b, hb, rfl⟩)).2, layout.sizes b hb]
    · apply layout.chain.congr
      intro a ha
      rcases List.mem_cons.mp ha with rfl | ha
      · exact (same _ (.inl rfl)).1
      · obtain ⟨b, hb, -, eq⟩ := mem_freeList.mp ha
        exact (same _ (.inr ⟨b, hb, eq⟩)).1
    · intro b hb live
      rw [(same _ (.inr ⟨b, hb, rfl⟩)).1, layout.owner b hb live]
    · rw [(same _ (.inl rfl)).2, layout.header]
  · exact layout.apart

theorem align_le {size : Nat} (small : size + 7 < 4294967296) :
    size ≤ MEM_ALIGN_NEXT size ∧ 8 ∣ MEM_ALIGN_NEXT size := by
  unfold MEM_ALIGN_NEXT
  rw [Nat.mod_eq_of_lt small]
  omega

/-- The search on a layout, with enough rounds. -/
theorem search_chHeapAlloc {h : Headers} (layout : Layout A h bs) {fuel : Nat}
    (enough : bs.length < fuel) (size : Nat) :
    Search A h (MEM_ALIGN_NEXT size) A.h_free bs (chHeapAlloc A h fuel size) :=
  search_allocLoop layout.sizes (fun _ hb => (layout.inside hb).1) layout.chain enough

/-- What a search that returned has found. -/
theorem search_of_result {h h' : Headers} {p fuel size : Nat} (layout : Layout A h bs)
    (result : chHeapAlloc A h fuel size = some (p, h')) :
    Search A h (MEM_ALIGN_NEXT size) A.h_free bs (some (p, h')) := by
  have enough : bs.length < fuel + (bs.length + 1) := by omega
  have more : chHeapAlloc A h (fuel + (bs.length + 1)) size = some (p, h') :=
    allocLoop_mono (Nat.le_add_right _ _) result
  rw [← more]
  exact search_chHeapAlloc layout enough size

theorem mem_split {b : Block} {n : Nat} (le : n ≤ b.size) :
    ∃ m, n ≤ m ∧ (⟨b.addr, m, false⟩ : Block) ∈ split b n ∧
      ∀ c ∈ split b n, c.free = false → c = ⟨b.addr, m, false⟩ := by
  unfold split
  split_ifs
  · refine ⟨b.size, le, List.mem_singleton.mpr rfl, ?_⟩
    intro c hc _
    exact List.mem_singleton.mp hc
  · refine ⟨n, le_rfl, List.mem_cons_self, ?_⟩
    intro c hc live
    rcases List.mem_pair.mp hc with rfl | rfl
    · rfl
    · exact absurd live (by simp [remainder])

theorem inv_alloc {h : Headers} {p fuel size : Nat} (inv : Inv A s bs)
    (small : size + 7 < 4294967296) (result : chHeapAlloc A s.heap fuel size = some (p, h)) :
    ∃ cs, Inv A ⟨h, if p = 0 then s.live else ⟨p - headerSize, size, h.size (p - headerSize)⟩ :: s.live⟩ cs := by
  obtain ⟨large, aligned⟩ := align_le small
  rcases search_of_result inv.toLayout result with ⟨-, eq⟩ | ⟨xs, b, ys, rfl, free, le, -, eq⟩
  · obtain ⟨rfl, rfl⟩ := Prod.mk.inj (Option.some.inj eq)
    rw [if_pos rfl]
    exact ⟨bs, inv⟩
  · obtain ⟨rfl, rfl⟩ := Prod.mk.inj (Option.some.inj eq)
    have layout := layout_takeBlock inv.toLayout free le aligned
    obtain ⟨m, le_m, here, only⟩ := mem_split le
    have addr : b.addr + headerSize - headerSize = b.addr := by omega
    have granted := layout.sizes ⟨b.addr, m, false⟩ (by simp [here])
    have old : ∀ c : Block, c.free = false → c ∈ xs ++ b :: ys →
        c ∈ xs ++ split b (MEM_ALIGN_NEXT size) ++ ys := by
      intro c live hc
      have side := mem_sides hc (ne_of_live live free)
      simp only [List.mem_append]
      tauto
    rw [if_neg (pointer_ne_zero b), addr, granted]
    refine ⟨_, layout, ?_, ?_, ?_⟩
    · intro l hl
      rcases List.mem_cons.mp hl with rfl | hl
      · exact ⟨by simp [here], le_trans large le_m⟩
      · obtain ⟨mem, le'⟩ := inv.live l hl
        exact ⟨old _ rfl mem, le'⟩
    · intro c hc live
      have : c ∈ split b (MEM_ALIGN_NEXT size) ∨ c ∈ xs ++ b :: ys := by
        simp only [List.mem_append, List.mem_cons] at hc ⊢
        tauto
      rcases this with new | mem
      · rw [only c new live]
        exact ⟨_, List.mem_cons_self, rfl⟩
      · obtain ⟨l, hl, eq⟩ := inv.known c mem live
        exact ⟨l, List.mem_cons_of_mem _ hl, eq⟩
    · rw [List.map_cons]
      apply List.nodup_cons.mpr
      refine ⟨?_, inv.distinct⟩
      intro mem
      -- the header of a live block is not that of the free one
      obtain ⟨l, hl, eq⟩ := List.mem_map.mp mem
      have same := List.inj_on_of_nodup_map inv.tiled.nodup (inv.live l hl).1
        (show b ∈ xs ++ b :: ys by simp) eq
      rw [← same] at free
      exact absurd free (by simp)

theorem inv_free {h : Headers} {fuel : Nat} {l : Live} (inv : Inv A s bs) (mem : l ∈ s.live)
    (result : chHeapFree s.heap fuel (l.header + headerSize) = some h) :
    ∃ cs, Inv A ⟨h, s.live.erase l⟩ cs := by
  obtain ⟨here, -⟩ := inv.live l mem
  obtain ⟨-, cs, layout, same⟩ := released_of_result inv.toLayout here rfl result
  have nodup : s.live.Nodup := inv.distinct.of_map _
  have other : ∀ l' ∈ s.live, l' ≠ l → l'.header ≠ l.header := by
    intro l' hl' ne eq
    exact ne (List.inj_on_of_nodup_map inv.distinct hl' mem eq)
  refine ⟨cs, layout, ?_, ?_, ?_⟩
  · intro l' hl'
    obtain ⟨ne, hl'⟩ := (nodup.mem_erase_iff).mp hl'
    obtain ⟨mem', le⟩ := inv.live l' hl'
    refine ⟨(same _ rfl).mpr ⟨mem', ?_⟩, le⟩
    intro eq
    exact other l' hl' ne (congrArg Block.addr eq)
  · intro c hc live
    obtain ⟨mem', ne⟩ := (same c live).mp hc
    obtain ⟨l', hl', eq⟩ := inv.known c mem' live
    refine ⟨l', (nodup.mem_erase_iff).mpr ⟨?_, hl'⟩, eq⟩
    rintro rfl
    exact ne (List.inj_on_of_nodup_map inv.tiled.nodup mem' here eq.symm)
  · exact inv.distinct.sublist ((List.erase_sublist).map _)

theorem inv_write {l : Live} {a u v : Nat} (inv : Inv A s bs) (mem : l ∈ s.live)
    (inside : l.header + headerSize ≤ a ∧ a < l.header + headerSize + l.granted) :
    Inv A ⟨(s.heap.setLink a u).setSize a v, s.live⟩ bs := by
  obtain ⟨here, -⟩ := inv.live l mem
  have elsewhere : ∀ a', a' = A.h_free ∨ (∃ b ∈ bs, b.addr = a') → a' ≠ a := by
    rintro a' header rfl
    exact inv.header_outside here header inside
  refine ⟨inv.toLayout.congr ?_, inv.live, inv.known, inv.distinct⟩
  intro a' ha'
  exact ⟨Function.update_of_ne (elsewhere a' ha') _ _, Function.update_of_ne (elsewhere a' ha') _ _⟩

theorem inv_step (inv : Inv A s bs) (step : Step A s s') : ∃ cs, Inv A s' cs := by
  cases step with
  | alloc fuel size small result => exact inv_alloc inv small result
  | free fuel b mem result => exact inv_free inv mem result
  | write b mem a u v inside => exact ⟨bs, inv_write inv mem inside⟩

theorem Reachable.inv (reachable : Reachable A s) : ∃ bs, Inv A s bs := by
  obtain ⟨h, run⟩ := reachable
  induction run with
  | refl =>
      refine ⟨_, layout_init A h, ?_, ?_, .nil⟩
      · intro l hl
        exact absurd hl (by simp)
      · intro b hb live
        rw [List.mem_singleton.mp hb] at live
        exact absurd live (by simp)
  | tail _ step ih =>
      obtain ⟨bs, inv⟩ := ih
      exact inv_step inv step

/-- No free block ends where another begins. -/
theorem Layout.not_adjacent {h : Headers} (layout : Layout A h bs) {b c : Block} (hb : b ∈ bs)
    (free_b : b.free = true) (hc : c ∈ bs) (free_c : c.free = true) :
    b.addr + headerSize + b.size ≠ c.addr := by
  intro adjacent
  obtain ⟨xs, ys, rfl⟩ := List.append_of_mem hb
  rcases List.mem_append.mp hc with hc | hc
  · have := layout.before hc
    unfold headerSize at *
    omega
  · rcases List.mem_cons.mp hc with rfl | hc
    · unfold headerSize at adjacent
      omega
    · obtain ⟨us, vs, rfl⟩ := List.append_of_mem hc
      obtain ⟨-, chain, -⟩ := List.isChain_append.mp layout.apart
      cases us with
      | nil =>
          cases chain with
          | cons_cons here _ => exact here ⟨free_b, free_c⟩
      | cons d us =>
          -- the block right after `b` begins no later than `d`, which is before `c`
          have first : b.addr + headerSize + b.size ≤ d.addr := layout.after (by simp)
          have sorted := layout.tiled.sorted
          rw [show xs ++ b :: (d :: us ++ c :: vs) = (xs ++ [b]) ++ d :: (us ++ c :: vs) by simp]
            at sorted
          have later := (List.pairwise_cons.mp (List.pairwise_append.mp sorted).2.1).1 c (by simp)
          unfold headerSize at *
          omega

theorem Layout.freeList_sorted {h : Headers} (layout : Layout A h bs) :
    (freeList bs).Pairwise (· < ·) := by
  rw [freeList, List.pairwise_map]
  apply (layout.tiled.sorted.sublist List.filter_sublist).imp
  intro b c le
  unfold headerSize at le
  omega

/-- A layout of free blocks only is the initial one. -/
theorem Layout.initial {h : Headers} (layout : Layout A h bs) (free : ∀ b ∈ bs, b.free = true) :
    bs = [⟨A.base, A.size - headerSize, true⟩] := by
  have tiled := layout.tiled
  have := A.fits
  cases bs with
  | nil =>
      change A.base = A.base + A.size at tiled
      unfold headerSize at *
      omega
  | cons b bs =>
      cases bs with
      | nil =>
          obtain ⟨addr, -, rest⟩ := tiled
          change A.base + headerSize + b.size = A.base + A.size at rest
          have size : b.size = A.size - headerSize := by omega
          rw [← addr, ← size, ← free b List.mem_cons_self]
      | cons c bs =>
          cases layout.apart with
          | cons_cons here _ => exact absurd ⟨free b (by simp), free c (by simp)⟩ here

/-- What `chHeapAlloc` returns on a layout. -/
theorem Layout.alloc {h : Headers} (layout : Layout A h bs) {fuel : Nat} (enough : bs.length < fuel)
    (size : Nat) :
    ∃ p h', chHeapAlloc A h fuel size = some (p, h') ∧
      (p = 0 ↔ ∀ b ∈ bs, b.free = true → b.size < MEM_ALIGN_NEXT size) ∧
      (p ≠ 0 → ∃ b ∈ bs, b.free = true ∧ MEM_ALIGN_NEXT size ≤ b.size ∧ p = b.addr + headerSize ∧
        ∀ c ∈ bs, c.free = true → MEM_ALIGN_NEXT size ≤ c.size → b.addr ≤ c.addr) := by
  rcases search_chHeapAlloc layout enough size with
    ⟨none, result⟩ | ⟨xs, b, ys, rfl, free, large, none, result⟩
  · refine ⟨0, h, result, ⟨fun _ => none, fun _ => rfl⟩, ?_⟩
    intro h
    exact absurd rfl h
  · refine ⟨_, _, result, ?_, ?_⟩
    · constructor
      · intro h
        unfold headerSize at h
        omega
      · intro h
        have := h b (by simp) free
        omega
    · intro _
      refine ⟨b, by simp, free, large, rfl, ?_⟩
      intro c hc free_c large_c
      rcases List.mem_append.mp hc with hc | hc
      · have := none c hc free_c
        omega
      · rcases List.mem_cons.mp hc with rfl | hc
        · exact le_rfl
        · have := layout.after hc
          unfold headerSize at this
          omega

/-- In every state of a run the blocks tile the arena: the free ones are exactly those on
the free list, in the order of their addresses and not adjacent, and the live ones are
exactly those handed out, each with the size it was given. Allocation takes the first
free block that is large enough, releases return, and without live blocks the heap is
as it was initialised. -/
theorem heap_invariant (reachable : Reachable A s) :
    ∃ bs : List Block,
      Tiled (A.base + A.size) A.base bs ∧
      Chain 0 s.heap.link A.h_free (freeList bs) ∧
      (freeList bs).Pairwise (· < ·) ∧
      (∀ b ∈ bs, b.free = true → ∀ c ∈ bs, c.free = true → b.addr + headerSize + b.size ≠ c.addr) ∧
      (∀ b ∈ bs, s.heap.size b.addr = b.size) ∧
      (∀ b ∈ bs, b.free = false ↔ ∃ l ∈ s.live, l.header = b.addr) ∧
      (s.live.map (·.header)).Nodup ∧
      (∀ l ∈ s.live, (⟨l.header, l.granted, false⟩ : Block) ∈ bs ∧
        s.heap.size l.header = l.granted ∧ l.requested ≤ l.granted) ∧
      (∀ size, size + 7 < 4294967296 → ∃ k, ∀ fuel, k < fuel →
        ∃ p h, chHeapAlloc A s.heap fuel size = some (p, h) ∧
          (p = 0 ↔ ∀ b ∈ bs, b.free = true → b.size < MEM_ALIGN_NEXT size) ∧
          (p ≠ 0 → ∃ b ∈ bs,
            b.free = true ∧ MEM_ALIGN_NEXT size ≤ b.size ∧ p = b.addr + headerSize ∧
            ∀ c ∈ bs, c.free = true → MEM_ALIGN_NEXT size ≤ c.size → b.addr ≤ c.addr)) ∧
      (∀ l ∈ s.live, ∃ k, ∀ fuel, k < fuel →
        ∃ h, chHeapFree s.heap fuel (l.header + headerSize) = some h) ∧
      (s.live = [] → bs = [⟨A.base, A.size - headerSize, true⟩]) := by
  obtain ⟨bs, inv⟩ := reachable.inv
  refine ⟨bs, inv.tiled, inv.chain, inv.freeList_sorted, ?_, inv.sizes, ?_, inv.distinct, ?_, ?_,
    ?_, ?_⟩
  · intro b hb free_b c hc free_c
    exact inv.not_adjacent hb free_b hc free_c
  · intro b hb
    constructor
    · exact inv.known b hb
    · rintro ⟨l, hl, eq⟩
      rw [← List.inj_on_of_nodup_map inv.tiled.nodup (inv.live l hl).1 hb eq]
  · intro l hl
    obtain ⟨mem, le⟩ := inv.live l hl
    exact ⟨mem, inv.sizes _ mem, le⟩
  · intro size _
    exact ⟨bs.length, fun fuel enough => inv.alloc enough size⟩
  · intro l hl
    refine ⟨bs.length, ?_⟩
    intro fuel enough
    obtain ⟨h, -, result, -⟩ := layout_chHeapFree inv.toLayout (inv.live l hl).1 rfl enough
    exact ⟨h, result⟩
  · intro none
    apply inv.initial
    intro b hb
    by_contra live
    obtain ⟨l, hl, -⟩ := inv.known b hb (Bool.eq_false_of_not_eq_true live)
    exact absurd hl (by simp [none])

/-- 256 bytes at address 4096. -/
def sampleArena : Arena where
  base := 4096
  size := 256
  heapp := 8192
  base_aligned := by decide
  size_aligned := by decide
  base_pos := by decide
  fits := by decide
  bound := by decide
  apart := by decide

/-- The state after `chHeapAlloc(20)`. -/
def sampleSys : Sys where
  heap := takeBlock sampleArena (chHeapObjectInit sampleArena ⟨fun _ => 0, fun _ => 0⟩) 8200 4096 24
  live := [⟨4096, 20, 24⟩]

theorem sampleSys_reachable : Reachable sampleArena sampleSys :=
  ⟨⟨fun _ => 0, fun _ => 0⟩, .single (.alloc (p := 4104) 2 20 (by decide) rfl)⟩

/-- After another allocation the first block is released. -/
theorem sampleSys_invariant :
    ∃ s, Relation.ReflTransGen (Step sampleArena) sampleSys s ∧ s.live = [⟨4128, 40, 40⟩] ∧
      ∃ bs : List Block, Tiled 4352 4096 bs ∧ (freeList bs).Pairwise (· < ·) ∧
        (⟨4128, 40, false⟩ : Block) ∈ bs ∧ ∀ b ∈ bs, b.addr = 4096 → b.free = true := by
  obtain ⟨s, run, live⟩ : ∃ s, Relation.ReflTransGen (Step sampleArena) sampleSys s ∧
      s.live = [⟨4128, 40, 40⟩] := by
    exact ⟨_, .head (.alloc (p := 4136) 2 40 (by decide) rfl)
      (.single (.free 2 ⟨4096, 20, 24⟩ (by decide) rfl)), rfl⟩
  obtain ⟨h, start⟩ := sampleSys_reachable
  have reachable : Reachable sampleArena s := ⟨h, start.trans run⟩
  obtain ⟨bs, tiled, -, sorted, -, -, used, -, known, -⟩ := heap_invariant reachable
  rw [live] at used known
  refine ⟨s, run, live, bs, tiled, sorted, (known ⟨4128, 40, 40⟩ (by simp)).1, ?_⟩
  intro b mem addr
  by_contra taken
  obtain ⟨l, here, header⟩ := (used b mem).mp (Bool.eq_false_of_not_eq_true taken)
  obtain rfl := List.mem_singleton.mp here
  exact absurd (header.trans addr) (by decide)

end Runs

end LtcOs.Heap
