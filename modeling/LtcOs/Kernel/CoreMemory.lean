import LtcOs.Kernel.Heap

/-!
The core memory `chmemcore.c` and the default heap, which gets its memory from there.

The core hands out areas from the bottom up and takes nothing back. The default heap begins without
memory; a request that no free block meets is passed on to the core. Seen from the heap, the areas
of others and the rest of the core are blocks that are never released: with headers made up for
them the heap is one that was initialised with the whole core.
-/

namespace LtcOs.Heap

open LtcOs.Linked

/-! ### The code -/

/-- `MEM_ALIGN_PREV`. -/
def MEM_ALIGN_PREV (size : Nat) : Nat := size / 8 * 8

structure Core where
  nextmem : Nat
  endmem : Nat
deriving DecidableEq, Repr

/-- `_core_init`, for the heap area of the linker script. -/
def coreInit (heap_base heap_end : Nat) : Core := ⟨MEM_ALIGN_NEXT heap_base, MEM_ALIGN_PREV heap_end⟩

/-- The result is the pointer returned, zero for `NULL`. -/
def chCoreAllocI (c : Core) (size : Nat) : Nat × Core :=
  let size := MEM_ALIGN_NEXT size
  if c.endmem - c.nextmem < size then (0, c)
  else (c.nextmem, { c with nextmem := c.nextmem + size })

def chCoreGetStatusX (c : Core) : Nat := c.endmem - c.nextmem

/-- `_heap_init` -/
def heapInit (A : Arena) (s : Headers) : Headers := (s.setLink A.h_free 0).setSize A.h_free 0

/-- The end of `chHeapAlloc`, without the lock: more memory is required. -/
def provide (A : Arena) (c : Core) (s : Headers) (size : Nat) : Nat × Core × Headers :=
  let size := MEM_ALIGN_NEXT size
  let r := chCoreAllocI c ((size + headerSize) % 4294967296)
  if r.1 = 0 then (0, r.2, s)
  else (r.1 + headerSize, r.2, (s.setLink r.1 A.heapp).setSize r.1 size)

/-- `chHeapAlloc(NULL, size)`, with a bound on the rounds. -/
def chHeapAllocDefault (A : Arena) (c : Core) (s : Headers) (fuel size : Nat) :
    Option (Nat × Core × Headers) :=
  (chHeapAlloc A s fuel size).map fun r =>
    if r.1 = 0 then provide A c r.2 size else (r.1, c, r.2)

/-- The loop of `chHeapStatus` with a bound on the rounds: the number of free blocks and the
sum of their sizes. -/
def statusLoop (s : Headers) : (fuel : Nat) → (qp n sz : Nat) → Option (Nat × Nat)
  | 0, _, _, _ => none
  | fuel + 1, qp, n, sz =>
      if s.link qp ≠ 0 then statusLoop s fuel (s.link qp) (n + 1) (sz + s.size (s.link qp))
      else some (n, sz)

def chHeapStatus (A : Arena) (s : Headers) (fuel : Nat) : Option (Nat × Nat) :=
  statusLoop s fuel A.h_free 0 0

/-! ### Runs -/

/-- The core, the default heap, the blocks handed out by the heap, and the areas handed out by the
core to others, with their sizes. -/
structure Memory where
  core : Core
  heap : Headers
  live : List Live
  areas : List (Nat × Nat)

/-- The calls for memory, each under its lock, and what is written to the memory handed out. A
request that the free blocks do not meet goes to the core later, whatever happens between. The
sizes are those for which neither the alignment nor the header overflows. -/
inductive MemStep (A : Arena) (s : Memory) : Memory → Prop where
  | core (size : Nat) (small : size + 7 < 4294967296) :
      MemStep A s { s with
        core := (chCoreAllocI s.core size).2
        areas := if (chCoreAllocI s.core size).1 = 0 ∨ MEM_ALIGN_NEXT size = 0 then s.areas
          else ((chCoreAllocI s.core size).1, MEM_ALIGN_NEXT size) :: s.areas }
  | alloc {heap : Headers} {p : Nat} (fuel size : Nat) (small : size + 15 < 4294967296)
      (result : chHeapAlloc A s.heap fuel size = some (p, heap)) :
      MemStep A s { s with
        heap := heap
        live := if p = 0 then s.live
          else ⟨p - headerSize, size, heap.size (p - headerSize)⟩ :: s.live }
  | more (size : Nat) (small : size + 15 < 4294967296) :
      MemStep A s { s with
        core := (provide A s.core s.heap size).2.1
        heap := (provide A s.core s.heap size).2.2
        live := if (provide A s.core s.heap size).1 = 0 then s.live
          else ⟨(provide A s.core s.heap size).1 - headerSize, size, MEM_ALIGN_NEXT size⟩ :: s.live }
  | free {heap : Headers} (fuel : Nat) (b : Live) (mem : b ∈ s.live)
      (result : chHeapFree s.heap fuel (b.header + headerSize) = some heap) :
      MemStep A s { s with heap := heap, live := s.live.erase b }
  | write (b : Live) (mem : b ∈ s.live) (a u v : Nat)
      (inside : b.header + headerSize ≤ a ∧ a < b.header + headerSize + b.granted) :
      MemStep A s { s with heap := (s.heap.setLink a u).setSize a v }
  | writeArea (r : Nat × Nat) (mem : r ∈ s.areas) (a u v : Nat) (aligned : 8 ∣ a)
      (inside : r.1 ≤ a ∧ a < r.1 + r.2) :
      MemStep A s { s with heap := (s.heap.setLink a u).setSize a v }

/-- The heap area of the linker script is the arena, and nothing has been handed out. -/
def MemReachable (A : Arena) (s : Memory) : Prop :=
  ∃ h heap_base heap_end, coreInit heap_base heap_end = ⟨A.base, A.base + A.size⟩ ∧
    Relation.ReflTransGen (MemStep A)
      ⟨coreInit heap_base heap_end, heapInit A h, [], []⟩ s

/-! ### Memory that is the same but for some headers -/

/-- The two memories differ only at the addresses `F`. -/
def Agree (F : Nat → Prop) (h h' : Headers) : Prop :=
  ∀ a, ¬ F a → h'.link a = h.link a ∧ h'.size a = h.size a

section Agree

variable {A : Arena} {F : Nat → Prop} {h h' : Headers} {p q v n : Nat} {l : List Nat}

theorem Agree.symm (agree : Agree F h h') : Agree F h' h :=
  fun a other => ⟨(agree a other).1.symm, (agree a other).2.symm⟩

theorem Agree.setLink (agree : Agree F h h') (p v : Nat) :
    Agree F (h.setLink p v) (h'.setLink p v) := by
  intro a other
  refine ⟨?_, (agree a other).2⟩
  change Function.update h'.link p v a = Function.update h.link p v a
  rw [Function.update_apply, Function.update_apply, (agree a other).1]

theorem Agree.setSize (agree : Agree F h h') (p v : Nat) :
    Agree F (h.setSize p v) (h'.setSize p v) := by
  intro a other
  refine ⟨(agree a other).1, ?_⟩
  change Function.update h'.size p v a = Function.update h.size p v a
  rw [Function.update_apply, Function.update_apply, (agree a other).2]

/-- One of the two is written at such an address. -/
theorem Agree.write (agree : Agree F h h') (here : F p) (u v : Nat) :
    Agree F h ((h'.setLink p u).setSize p v) := by
  intro a other
  have differs : a ≠ p := by
    rintro rfl
    exact other here
  exact ⟨(Function.update_of_ne differs _ _).trans (agree a other).1,
    (Function.update_of_ne differs _ _).trans (agree a other).2⟩

theorem Agree.limit (agree : Agree F h h') (here : ¬ F p) : h'.limit p = h.limit p :=
  congrArg (p + headerSize + ·) (agree p here).2

theorem Agree.takeBlock (agree : Agree F h h') (here : ¬ F p) (n : Nat) :
    Agree F (takeBlock A h q p n) (takeBlock A h' q p n) := by
  have size : ∀ x v, (h'.setLink x v).size p = (h.setLink x v).size p :=
    fun _ _ => (agree p here).2
  unfold Heap.takeBlock
  dsimp only
  rw [(agree p here).1, (agree p here).2, size]
  split_ifs with small
  · exact (agree.setLink _ _).setLink _ _
  · exact ((((agree.setLink _ _).setSize _ _).setLink _ _).setSize _ _).setLink _ _

theorem Agree.mergeBlock (agree : Agree F h h') (here : ¬ F p) (next : ¬ F (h.link p)) :
    Agree F (mergeBlock h p) (mergeBlock h' p) := by
  have link : ∀ v, (h'.setSize p v).link ((h'.setSize p v).link p) =
      (h.setSize p v).link ((h.setSize p v).link p) := by
    intro v
    change h'.link (h'.link p) = h.link (h.link p)
    rw [(agree p here).1, (agree _ next).1]
  unfold Heap.mergeBlock
  dsimp only
  rw [(agree p here).1, (agree p here).2, (agree _ next).2, link]
  exact (agree.setSize _ _).setLink _ _

theorem Agree.insertNext (agree : Agree F h h') (last : ¬ F q) (here : ¬ F p)
    (next : ¬ F (h.link q)) : Agree F (insertNext h q p) (insertNext h' q p) := by
  have linked := (agree.setLink p (h.link q)).setLink q p
  have behind : ¬ F (((h.setLink p (h.link q)).setLink q p).link p) := by
    change ¬ F (Function.update (Function.update h.link p (h.link q)) q p p)
    by_cases same : p = q
    · rwa [same, Function.update_self, ← same]
    · rwa [Function.update_of_ne same, Function.update_self]
  unfold Heap.insertNext
  dsimp only
  rw [(agree q last).1, linked.limit here, (linked p here).1]
  split_ifs
  · exact linked.mergeBlock here behind
  · exact linked

theorem Agree.insertAfter (agree : Agree F h h') (last : ¬ F q) (here : ¬ F p)
    (next : ¬ F (h.link q)) : Agree F (insertAfter h q p) (insertAfter h' q p) := by
  have inserted := agree.insertNext last here next
  have unfolded : ∀ s : Headers, Heap.insertAfter s q p =
      if (Heap.insertNext s q p).limit q = p then
        ((Heap.insertNext s q p).setSize q ((Heap.insertNext s q p).size q +
          ((Heap.insertNext s q p).size p + headerSize))).setLink q ((Heap.insertNext s q p).link p)
      else Heap.insertNext s q p := fun _ => rfl
  rw [unfolded, unfolded, inserted.limit last, (inserted q last).2, (inserted p here).2,
    (inserted p here).1]
  split_ifs
  · exact (inserted.setSize _ _).setLink _ _
  · exact inserted

/-- The search for a free block reads only headers on the free list. -/
theorem Agree.allocLoop (agree : Agree F h h') {fuel : Nat} (chain : Chain 0 h.link q l)
    (apart : ∀ a ∈ q :: l, ¬ F a) {r : Nat} {g : Headers}
    (result : allocLoop A h n fuel q = some (r, g)) :
    ∃ g', allocLoop A h' n fuel q = some (r, g') ∧ Agree F g g' := by
  induction fuel generalizing q l with
  | zero => cases result
  | succ fuel ih =>
      have here := apart q List.mem_cons_self
      rw [Heap.allocLoop] at result ⊢
      rw [(agree q here).1]
      cases l with
      | nil =>
          rw [if_neg (not_not.mpr (chain_nil.mp chain))] at result ⊢
          obtain ⟨rfl, rfl⟩ := Prod.mk.inj (Option.some.inj result)
          exact ⟨h', rfl, agree⟩
      | cons b l =>
          obtain ⟨first, rest⟩ := chain_cons.mp chain
          have next : ¬ F b := apart b (by simp)
          rw [first] at result ⊢
          by_cases more : b ≠ 0
          · rw [if_pos more] at result ⊢
            dsimp only at result ⊢
            rw [(agree b next).2]
            split_ifs at result ⊢ with large
            · obtain ⟨rfl, rfl⟩ := Prod.mk.inj (Option.some.inj result)
              exact ⟨_, rfl, agree.takeBlock next n⟩
            · exact ih rest (fun a mem => apart a (List.mem_cons_of_mem _ mem)) result
          · rw [if_neg more] at result ⊢
            obtain ⟨rfl, rfl⟩ := Prod.mk.inj (Option.some.inj result)
            exact ⟨h', rfl, agree⟩

end Agree

/-! ### The heap with the whole core -/

/-- A block handed out, as a block of the arena. -/
def Live.block (l : Live) : Block := ⟨l.header, l.granted, false⟩

/-- An area of others as a block; its header is the begin of the area. -/
def area (r : Nat × Nat) : Live := ⟨r.1, 0, r.2 - headerSize⟩

/-- The rest of the core as a block. -/
def Core.rest (c : Core) : List Live :=
  if c.nextmem < c.endmem then [⟨c.nextmem, 0, c.endmem - c.nextmem - headerSize⟩] else []

def Memory.others (s : Memory) : List Live := s.areas.map area ++ s.core.rest

/-- The addresses where headers are made up. -/
def Memory.Made (s : Memory) (a : Nat) : Prop := a = s.core.nextmem ∨ ∃ r ∈ s.areas, r.1 = a

structure Aligned (A : Arena) (s : Memory) : Prop where
  endmem : s.core.endmem = A.base + A.size
  next : A.base ≤ s.core.nextmem ∧ s.core.nextmem ≤ A.base + A.size ∧ 8 ∣ s.core.nextmem
  areas : ∀ r ∈ s.areas, 8 ∣ r.1 ∧ 0 < r.2 ∧ 8 ∣ r.2

/-- The memory is that of a heap with the whole core, of which the areas of others and the rest of
the core have been handed out. -/
structure Seen (A : Arena) (s : Memory) (g : Headers) (bs : List Block) : Prop
    extends Aligned A s where
  inv : Inv A ⟨g, s.live ++ s.others⟩ bs
  agree : Agree s.Made g s.heap

section Carve

variable {A : Arena} {g : Headers} {live : List Live} {new : Live} {bs xs : List Block} {p m : Nat}

/-- A block that ends at the top of the arena is the last one. -/
theorem Shape.last {b : Block} (shape : Shape A g bs) (mem : b ∈ bs)
    (top : b.addr + headerSize + b.size = A.base + A.size) : ∃ xs, bs = xs ++ [b] := by
  obtain ⟨xs, ys, rfl⟩ := List.append_of_mem mem
  cases ys with
  | nil => exact ⟨xs, rfl⟩
  | cons c ys =>
      have after := shape.after (show c ∈ c :: ys from List.mem_cons_self)
      have inside := shape.inside (show c ∈ xs ++ b :: c :: ys by simp)
      unfold headerSize at *
      omega

theorem rest_cases (c : Core) :
    (c.nextmem < c.endmem ∧ c.rest = [⟨c.nextmem, 0, c.endmem - c.nextmem - headerSize⟩]) ∨
      (c.endmem ≤ c.nextmem ∧ c.rest = []) := by
  unfold Core.rest
  split_ifs with more
  · exact .inl ⟨more, rfl⟩
  · exact .inr ⟨not_lt.mp more, rfl⟩

/-- The rest of the core fills it up. -/
theorem tiled_rest (aligned : 8 ∣ p ∧ 8 ∣ m) (le : p ≤ m) :
    Tiled m p ((Core.rest ⟨p, m⟩).map Live.block) := by
  rcases rest_cases ⟨p, m⟩ with ⟨more, eq⟩ | ⟨none, eq⟩
  · dsimp only at more
    rw [eq]
    refine ⟨rfl, ?_, ?_⟩
    · change 8 ∣ m - p - headerSize
      unfold headerSize
      omega
    · change p + headerSize + (m - p - headerSize) = m
      unfold headerSize
      omega
  · rw [eq]
    exact le_antisymm le none

theorem rest_live {b : Block} (c : Core) (mem : b ∈ c.rest.map Live.block) :
    b.free = false ∧ b.addr = c.nextmem := by
  rcases rest_cases c with ⟨-, eq⟩ | ⟨-, eq⟩
  · rw [eq] at mem
    rw [List.mem_singleton.mp mem]
    exact ⟨rfl, rfl⟩
  · rw [eq] at mem
    exact absurd mem List.not_mem_nil

/-- Headers for the two parts of the last block. -/
def carved (A : Arena) (g : Headers) (p m : Nat) : Headers :=
  let g := (g.setLink (p + m) A.heapp).setSize (p + m) (A.base + A.size - (p + m) - headerSize)
  (g.setLink p A.heapp).setSize p (m - headerSize)

theorem carved_of_ne {a : Nat} (first : a ≠ p) (second : a ≠ p + m) :
    (carved A g p m).link a = g.link a ∧ (carved A g p m).size a = g.size a :=
  ⟨(Function.update_of_ne first _ _).trans (Function.update_of_ne second _ _),
    (Function.update_of_ne first _ _).trans (Function.update_of_ne second _ _)⟩

theorem carved_first : (carved A g p m).link p = A.heapp ∧
    (carved A g p m).size p = m - headerSize :=
  ⟨Function.update_self _ _ _, Function.update_self _ _ _⟩

theorem carved_second (pos : 0 < m) : (carved A g p m).link (p + m) = A.heapp ∧
    (carved A g p m).size (p + m) = A.base + A.size - (p + m) - headerSize := by
  have other : p + m ≠ p := by omega
  exact ⟨(Function.update_of_ne other _ _).trans (Function.update_self _ _ _),
    (Function.update_of_ne other _ _).trans (Function.update_self _ _ _)⟩

/-- The last block, which is not free, is cut in two, the second of which may be empty. -/
theorem Layout.carve {n : Nat} (layout : Layout A g (xs ++ [⟨p, n, false⟩]))
    (aligned : 8 ∣ p ∧ 8 ∣ m) (pos : 0 < m) (room : p + m ≤ A.base + A.size) :
    Layout A (carved A g p m) (xs ++ ⟨p, m - headerSize, false⟩ ::
      (Core.rest ⟨p + m, A.base + A.size⟩).map Live.block) := by
  have apart := A.apart
  have inside := layout.inside (show (⟨p, n, false⟩ : Block) ∈ xs ++ [⟨p, n, false⟩] by simp)
  dsimp only at inside
  obtain ⟨mid, before, at_mid, -⟩ := tiled_append.mp layout.tiled
  have at_mid : p = mid := at_mid
  have elsewhere : ∀ c ∈ xs, (carved A g p m).link c.addr = g.link c.addr ∧
      (carved A g p m).size c.addr = g.size c.addr := by
    intro c mem
    have before : c.addr + headerSize + c.size ≤ p := layout.before mem
    unfold headerSize at before
    exact carved_of_ne (by omega) (by omega)
  have head : (carved A g p m).link A.h_free = g.link A.h_free ∧
      (carved A g p m).size A.h_free = g.size A.h_free := by
    unfold Arena.h_free headerSize at *
    exact carved_of_ne (by omega) (by omega)
  have rest := fun c mem => rest_live (b := c) ⟨p + m, A.base + A.size⟩ mem
  have free : freeList (xs ++ ⟨p, m - headerSize, false⟩ ::
      (Core.rest ⟨p + m, A.base + A.size⟩).map Live.block) = freeList xs := by
    have none : freeList ((Core.rest ⟨p + m, A.base + A.size⟩).map Live.block) = [] := by
      rcases rest_cases ⟨p + m, A.base + A.size⟩ with ⟨-, eq⟩ | ⟨-, eq⟩
      · rw [eq]
        rfl
      · rw [eq]
        rfl
    rw [freeList_append, freeList_cons_live rfl, none, List.append_nil]
  have old : freeList (xs ++ [⟨p, n, false⟩]) = freeList xs := by
    rw [freeList_append, freeList_cons_live rfl]
    exact List.append_nil _
  refine ⟨⟨?_, ?_, ?_, ?_, ?_⟩, ?_⟩
  · refine tiled_append.mpr ⟨mid, before, at_mid, ?_, ?_⟩
    · change 8 ∣ m - headerSize
      unfold headerSize
      omega
    · have next : mid + headerSize + (m - headerSize) = p + m := by
        unfold headerSize
        omega
      change Tiled _ (mid + headerSize + (m - headerSize)) _
      rw [next]
      exact tiled_rest ⟨by omega, by have := A.base_aligned; have := A.size_aligned; omega⟩ room
  · refine mem_middle carved_first.2 ?_
    rintro c (mem | mem)
    · rw [(elsewhere c mem).2]
      exact layout.sizes c (by simp [mem])
    · rcases rest_cases ⟨p + m, A.base + A.size⟩ with ⟨-, eq⟩ | ⟨-, eq⟩
      · rw [eq] at mem
        rw [List.mem_singleton.mp mem]
        exact (carved_second pos).2
      · rw [eq] at mem
        exact absurd mem List.not_mem_nil
  · rw [free]
    have chain := layout.chain
    rw [old] at chain
    refine chain.congr fun a mem => ?_
    rcases List.mem_cons.mp mem with rfl | mem
    · exact head.1
    · obtain ⟨c, here, -, rfl⟩ := mem_freeList.mp mem
      exact (elsewhere c here).1
  · refine mem_middle (fun _ => carved_first.1) ?_
    rintro c (mem | mem) live
    · rw [(elsewhere c mem).1]
      exact layout.owner c (by simp [mem]) live
    · rw [(rest c mem).2]
      exact (carved_second pos).1
  · rw [head.2]
    exact layout.header
  · obtain ⟨left, -, -⟩ := List.isChain_append.mp layout.apart
    refine isChain_live left ?_ rfl
    rcases rest_cases ⟨p + m, A.base + A.size⟩ with ⟨-, eq⟩ | ⟨-, eq⟩
    · rw [eq]
      exact .singleton _
    · rw [eq]
      exact .nil

/-- The begin of the rest of the core is handed out. -/
theorem Inv.carve (inv : Inv A ⟨g, live ++ Core.rest ⟨p, A.base + A.size⟩⟩ bs)
    (aligned : 8 ∣ p ∧ 8 ∣ m) (pos : 0 < m) (room : p + m ≤ A.base + A.size)
    (block : new.block = ⟨p, m - headerSize, false⟩) (fits : new.requested ≤ new.granted) :
    ∃ cs, Inv A ⟨carved A g p m, new :: (live ++ Core.rest ⟨p + m, A.base + A.size⟩)⟩ cs := by
  have header : new.header = p := congrArg Block.addr block
  have more : p < A.base + A.size := by omega
  have rest : Core.rest ⟨p, A.base + A.size⟩ = [⟨p, 0, A.base + A.size - p - headerSize⟩] :=
    if_pos more
  rw [rest] at inv
  have last := (inv.live ⟨p, 0, A.base + A.size - p - headerSize⟩ (by simp)).1
  obtain ⟨xs, rfl⟩ := inv.last last (by
    have inside := inv.inside last
    have base := A.base_aligned
    have size := A.size_aligned
    unfold headerSize
    dsimp only
    omega)
  have below : ∀ c ∈ xs, c.addr < p := by
    intro c mem
    have before : c.addr + headerSize + c.size ≤ p := inv.before mem
    unfold headerSize at before
    omega
  have distinct := inv.distinct
  rw [List.map_append] at distinct
  obtain ⟨distinct, -, others⟩ := List.nodup_append.mp distinct
  have old : ∀ l ∈ live, l.block ∈ xs := by
    intro l mem
    have here := (inv.live l (by simp [mem])).1
    rcases List.mem_append.mp here with before | same
    · exact before
    · have addr : l.header = p := congrArg Block.addr (List.mem_singleton.mp same)
      exact absurd addr (others _ (List.mem_map_of_mem mem) p (by simp))
  have under : ∀ l ∈ live, l.header < p := fun l mem => below _ (old l mem)
  refine ⟨_, inv.toLayout.carve aligned pos room, ?_, ?_, ?_⟩
  · intro l mem
    rcases List.mem_cons.mp mem with rfl | mem
    · refine ⟨?_, fits⟩
      change l.block ∈ _
      rw [block]
      simp
    · rcases List.mem_append.mp mem with mem | mem
      · refine ⟨?_, (inv.live l (by simp [mem])).2⟩
        exact List.mem_append_left _ (old l mem)
      · refine ⟨?_, ?_⟩
        · exact List.mem_append_right _ (List.mem_cons_of_mem _ (List.mem_map_of_mem mem))
        · rcases rest_cases ⟨p + m, A.base + A.size⟩ with ⟨-, eq⟩ | ⟨-, eq⟩
          · rw [eq] at mem
            rw [List.mem_singleton.mp mem]
            exact Nat.zero_le _
          · rw [eq] at mem
            exact absurd mem List.not_mem_nil
  · intro c mem live_c
    rcases List.mem_append.mp mem with mem | mem
    · obtain ⟨l, known, addr⟩ := inv.known c (List.mem_append_left _ mem) live_c
      rcases List.mem_append.mp known with known | known
      · exact ⟨l, by simp [known], addr⟩
      · rw [List.mem_singleton.mp known] at addr
        exact absurd addr (below c mem).ne'
    · rcases List.mem_cons.mp mem with rfl | mem
      · exact ⟨new, by simp, header⟩
      · obtain ⟨l, known, rfl⟩ := List.mem_map.mp mem
        exact ⟨l, by simp [known], rfl⟩
  · change (List.map _ (new :: (live ++ _))).Nodup
    rw [List.map_cons, List.map_append, header]
    have after : ∀ a ∈ (Core.rest ⟨p + m, A.base + A.size⟩).map (·.header), a = p + m := by
      intro a mem
      obtain ⟨l, known, rfl⟩ := List.mem_map.mp mem
      exact (rest_live (b := l.block) _ (List.mem_map_of_mem known)).2
    refine List.nodup_cons.mpr ⟨fun mem => ?_, List.nodup_append.mpr ⟨distinct, ?_, ?_⟩⟩
    · rcases List.mem_append.mp mem with mem | mem
      · obtain ⟨l, known, eq⟩ := List.mem_map.mp mem
        exact absurd eq (under l known).ne
      · have := after p mem
        omega
    · rcases rest_cases ⟨p + m, A.base + A.size⟩ with ⟨-, eq⟩ | ⟨-, eq⟩
      · rw [eq]
        exact List.nodup_singleton _
      · rw [eq]
        exact List.nodup_nil
    · intro a mem a' mem' eq
      obtain ⟨l, known, rfl⟩ := List.mem_map.mp mem
      have := under l known
      have := after a' mem'
      omega

end Carve

section Made

variable {A : Arena} {s : Memory} {g : Headers} {live : List Live} {bs : List Block} {a : Nat}

theorem Aligned.made (aligned : Aligned A s) (made : s.Made a) :
    a = A.base + A.size ∨ ∃ l ∈ s.others, l.header = a := by
  rcases made with rfl | ⟨r, mem, rfl⟩
  · rcases rest_cases s.core with ⟨-, eq⟩ | ⟨none, -⟩
    · refine .inr ⟨⟨s.core.nextmem, 0, s.core.endmem - s.core.nextmem - headerSize⟩,
        List.mem_append_right _ ?_, rfl⟩
      rw [eq]
      exact List.mem_singleton_self _
    · have endmem := aligned.endmem
      have next := aligned.next
      exact .inl (by omega)
  · exact .inr ⟨area r, List.mem_append_left _ (List.mem_map_of_mem mem), rfl⟩

/-- Headers are made up in the core only. -/
theorem Aligned.made_inside (aligned : Aligned A s) (inv : Inv A ⟨g, live ++ s.others⟩ bs)
    (made : s.Made a) : A.base ≤ a ∧ a ≤ A.base + A.size := by
  rcases aligned.made made with rfl | ⟨l, mem, rfl⟩
  · exact ⟨Nat.le_add_right _ _, le_rfl⟩
  · have inside := inv.inside (inv.live l (by simp [mem])).1
    dsimp only at inside
    unfold headerSize at inside
    omega

theorem Aligned.head_not_made (aligned : Aligned A s) (inv : Inv A ⟨g, live ++ s.others⟩ bs) :
    ¬ s.Made A.h_free ∧ ¬ s.Made 0 := by
  have apart := A.apart
  have pos := A.base_pos
  constructor
  · intro made
    have inside := aligned.made_inside inv made
    unfold Arena.h_free at inside
    omega
  · intro made
    have inside := aligned.made_inside inv made
    omega

theorem Aligned.live_not_made (aligned : Aligned A s) (inv : Inv A ⟨g, live ++ s.others⟩ bs)
    {l : Live} (mem : l ∈ live) : ¬ s.Made l.header := by
  intro made
  rcases aligned.made made with top | ⟨other, here, eq⟩
  · have inside := inv.inside (inv.live l (by simp [mem])).1
    dsimp only at inside
    unfold headerSize at inside
    omega
  · have distinct := inv.distinct
    rw [List.map_append] at distinct
    exact (List.nodup_append.mp distinct).2.2 _ (List.mem_map_of_mem mem) _
      (List.mem_map_of_mem here) eq.symm

theorem Aligned.free_not_made (aligned : Aligned A s) (inv : Inv A ⟨g, live ++ s.others⟩ bs)
    {b : Block} (mem : b ∈ bs) (free : b.free = true) : ¬ s.Made b.addr := by
  intro made
  rcases aligned.made made with top | ⟨other, here, eq⟩
  · have inside := inv.inside mem
    unfold headerSize at inside
    omega
  · have block := (inv.live other (by simp [here])).1
    have same := List.inj_on_of_nodup_map inv.tiled.nodup block mem eq
    rw [← same] at free
    cases free

/-- The headers on the free list are those in memory. -/
theorem Seen.chain_not_made (seen : Seen A s g bs) : ∀ a ∈ A.h_free :: freeList bs, ¬ s.Made a := by
  intro a mem
  rcases List.mem_cons.mp mem with rfl | mem
  · exact (seen.head_not_made seen.inv).1
  · obtain ⟨b, here, free, rfl⟩ := mem_freeList.mp mem
    exact seen.free_not_made seen.inv here free

theorem Seen.chain (seen : Seen A s g bs) : Chain 0 s.heap.link A.h_free (freeList bs) :=
  seen.inv.chain.congr fun a mem => (seen.agree a (seen.chain_not_made a mem)).1

theorem Seen.sizes (seen : Seen A s g bs) {b : Block} (mem : b ∈ bs) (free : b.free = true) :
    s.heap.size b.addr = b.size :=
  (seen.agree _ (seen.free_not_made seen.inv mem free)).2.trans (seen.inv.sizes b mem)

end Made

/-! ### Steps -/

section Steps

variable {A : Arena} {s s' : Memory} {g : Headers} {bs : List Block}

/-- A search in memory is one in the heap with the whole core. -/
theorem Seen.search (seen : Seen A s g bs) {fuel size p : Nat} {heap : Headers}
    (result : chHeapAlloc A s.heap fuel size = some (p, heap)) :
    ∃ g', chHeapAlloc A g fuel size = some (p, g') ∧ Agree s.Made g' heap := by
  obtain ⟨g', found, agree⟩ := seen.agree.symm.allocLoop seen.chain seen.chain_not_made result
  exact ⟨g', found, agree.symm⟩

theorem Seen.alloc (seen : Seen A s g bs) {fuel size p : Nat} {heap : Headers}
    (small : size + 15 < 4294967296) (result : chHeapAlloc A s.heap fuel size = some (p, heap)) :
    ∃ g' cs, Seen A { s with
      heap := heap
      live := if p = 0 then s.live
        else ⟨p - headerSize, size, heap.size (p - headerSize)⟩ :: s.live } g' cs := by
  obtain ⟨g', found, agree⟩ := seen.search result
  obtain ⟨cs, inv⟩ := inv_alloc seen.inv (by omega) found
  refine ⟨g', cs, ⟨seen.endmem, seen.next, seen.areas⟩, ?_, agree⟩
  by_cases none : p = 0
  · rw [if_pos none] at inv ⊢
    exact inv
  · rw [if_neg none] at inv ⊢
    dsimp only at inv ⊢
    rw [← List.cons_append] at inv
    have known : ¬ s.Made (p - headerSize) := seen.live_not_made inv List.mem_cons_self
    rw [(agree _ known).2]
    exact inv

/-- A release in memory goes to the same place in the list of blocks. -/
theorem Seen.release (seen : Seen A s g bs) {l : Live} (mem : l ∈ s.live) {fuel : Nat}
    (enough : bs.length < fuel) :
    ∃ xs ys, bs = xs ++ l.block :: ys ∧
      chHeapFree g fuel (l.header + headerSize) =
        some (insertAfter g (lastOf A.h_free (freeList xs)) l.header) ∧
      chHeapFree s.heap fuel (l.header + headerSize) =
        some (insertAfter s.heap (lastOf A.h_free (freeList xs)) l.header) := by
  have here : l.block ∈ bs := (seen.inv.live l (List.mem_append_left _ mem)).1
  have known : ¬ s.Made l.header := seen.live_not_made seen.inv mem
  have chain := seen.chain
  obtain ⟨xs, ys, rfl⟩ := List.append_of_mem here
  have layout := seen.inv.toLayout
  have short : xs.length < fuel := by
    rw [List.length_append] at enough
    omega
  refine ⟨xs, ys, rfl, chHeapFree_eq layout rfl short, ?_⟩
  have owner : s.heap.link l.header = A.heapp :=
    (seen.agree _ known).1.trans (layout.owner l.block (by simp) rfl)
  rw [freeList_append, freeList_cons_live rfl, ← freeList_append] at chain
  have addr : l.header + headerSize - headerSize = l.header := Nat.add_sub_cancel _ _
  rw [chHeapFree, addr, owner]
  refine freeLoop_spec ys chain (.inl rfl) (fun c mem => ?_) (fun c mem => ?_) short
  · have before : c.addr + headerSize + c.size ≤ l.header := layout.before mem
    have inside := layout.inside (show c ∈ xs ++ l.block :: ys by simp [mem])
    unfold headerSize at *
    omega
  · have after : l.header + headerSize + l.granted ≤ c.addr := layout.after mem
    unfold headerSize at after
    omega

theorem Seen.free (seen : Seen A s g bs) {fuel : Nat} {l : Live} (mem : l ∈ s.live)
    {heap : Headers} (result : chHeapFree s.heap fuel (l.header + headerSize) = some heap) :
    ∃ g' cs, Seen A { s with heap := heap, live := s.live.erase l } g' cs := by
  have enough : bs.length < fuel + (bs.length + 1) := by omega
  have more : chHeapFree s.heap (fuel + (bs.length + 1)) (l.header + headerSize) = some heap :=
    freeLoop_mono (Nat.le_add_right _ _) result
  obtain ⟨xs, ys, rfl, ghost, real⟩ := seen.release mem enough
  obtain rfl := Option.some.inj (more.symm.trans real)
  obtain ⟨cs, inv⟩ := inv_free seen.inv (List.mem_append_left _ mem) ghost
  rw [List.erase_append_left _ mem] at inv
  have chained := seen.chain_not_made
  obtain ⟨-, -, chain⟩ := seen.inv.chain_split
  have last : lastOf A.h_free (freeList xs) ∈ A.h_free :: freeList (xs ++ l.block :: ys) := by
    rw [freeList_append, ← List.cons_append]
    exact List.mem_append_left _ (lastOf_mem _ _)
  have next : ¬ s.Made (g.link (lastOf A.h_free (freeList xs))) := by
    cases rest : freeList (l.block :: ys) with
    | nil =>
        rw [rest] at chain
        rw [chain_nil.mp chain]
        exact (seen.head_not_made seen.inv).2
    | cons a as =>
        rw [rest] at chain
        rw [(chain_cons.mp chain).1]
        refine chained a ?_
        rw [freeList_append, rest]
        simp
  exact ⟨_, cs, ⟨seen.endmem, seen.next, seen.areas⟩, inv,
    seen.agree.insertAfter (chained _ last) (seen.live_not_made seen.inv mem) next⟩

theorem Seen.write (seen : Seen A s g bs) {l : Live} (mem : l ∈ s.live) {a u v : Nat}
    (inside : l.header + headerSize ≤ a ∧ a < l.header + headerSize + l.granted) :
    ∃ g', Seen A { s with heap := (s.heap.setLink a u).setSize a v } g' bs :=
  ⟨_, ⟨seen.endmem, seen.next, seen.areas⟩,
    inv_write seen.inv (List.mem_append_left _ mem) inside,
    (seen.agree.setLink a u).setSize a v⟩

theorem Seen.writeArea (seen : Seen A s g bs) {r : Nat × Nat} (mem : r ∈ s.areas) {a u v : Nat}
    (aligned : 8 ∣ a) (inside : r.1 ≤ a ∧ a < r.1 + r.2) :
    ∃ g', Seen A { s with heap := (s.heap.setLink a u).setSize a v } g' bs := by
  by_cases first : r.1 = a
  · exact ⟨g, ⟨seen.endmem, seen.next, seen.areas⟩, seen.inv,
      seen.agree.write (.inr ⟨r, mem, first⟩) u v⟩
  · have others : area r ∈ s.live ++ s.others :=
      List.mem_append_right _ (List.mem_append_left _ (List.mem_map_of_mem mem))
    have sizes := seen.areas r mem
    have within : (area r).header + headerSize ≤ a ∧
        a < (area r).header + headerSize + (area r).granted := by
      unfold area headerSize
      dsimp only
      omega
    exact ⟨_, ⟨seen.endmem, seen.next, seen.areas⟩, inv_write seen.inv others within,
      (seen.agree.setLink a u).setSize a v⟩

theorem Inv.perm {live live' : List Live} (inv : Inv A ⟨g, live⟩ bs) (perm : live.Perm live') :
    Inv A ⟨g, live'⟩ bs := by
  refine ⟨inv.toLayout, fun l mem => inv.live l (perm.mem_iff.mpr mem), fun b mem live_b => ?_,
    (perm.map _).nodup_iff.mp inv.distinct⟩
  obtain ⟨l, known, addr⟩ := inv.known b mem live_b
  exact ⟨l, perm.mem_iff.mp known, addr⟩

theorem chCoreAllocI_cases (c : Core) (size : Nat) :
    (c.endmem - c.nextmem < MEM_ALIGN_NEXT size ∧ chCoreAllocI c size = (0, c)) ∨
      (MEM_ALIGN_NEXT size ≤ c.endmem - c.nextmem ∧
        chCoreAllocI c size = (c.nextmem, ⟨c.nextmem + MEM_ALIGN_NEXT size, c.endmem⟩)) := by
  unfold chCoreAllocI
  dsimp only
  split_ifs with short
  · exact .inl ⟨short, rfl⟩
  · exact .inr ⟨not_lt.mp short, rfl⟩

/-- The begin of the rest of the core goes to somebody. -/
theorem Seen.carve (seen : Seen A s g bs) {m : Nat} (aligned : 8 ∣ m) (pos : 0 < m)
    (room : m ≤ s.core.endmem - s.core.nextmem) {new : Live}
    (block : new.block = ⟨s.core.nextmem, m - headerSize, false⟩)
    (fits : new.requested ≤ new.granted) :
    ∃ cs, Inv A ⟨carved A g s.core.nextmem m,
      new :: (s.live ++ s.areas.map area ++ Core.rest ⟨s.core.nextmem + m, s.core.endmem⟩)⟩ cs := by
  have next := seen.next
  have endmem := seen.endmem
  have inv := seen.inv
  unfold Memory.others at inv
  have rest : s.core.rest = Core.rest ⟨s.core.nextmem, A.base + A.size⟩ := by rw [← endmem]
  rw [← List.append_assoc, rest] at inv
  rw [endmem]
  exact inv.carve ⟨next.2.2, aligned⟩ pos (by omega) block fits

theorem Seen.core (seen : Seen A s g bs) {size : Nat} (small : size + 7 < 4294967296) :
    ∃ g' cs, Seen A { s with
      core := (chCoreAllocI s.core size).2
      areas := if (chCoreAllocI s.core size).1 = 0 ∨ MEM_ALIGN_NEXT size = 0 then s.areas
        else ((chCoreAllocI s.core size).1, MEM_ALIGN_NEXT size) :: s.areas } g' cs := by
  obtain ⟨-, aligned⟩ := align_le small
  have next := seen.next
  have base := A.base_pos
  rcases chCoreAllocI_cases s.core size with ⟨-, eq⟩ | ⟨room, eq⟩
  · rw [eq, if_pos (.inl rfl)]
    exact ⟨g, bs, seen⟩
  · rw [eq]
    dsimp only
    by_cases none : MEM_ALIGN_NEXT size = 0
    · rw [if_pos (.inr none), none]
      exact ⟨g, bs, seen⟩
    · have nonzero : s.core.nextmem ≠ 0 := by omega
      rw [if_neg (not_or.mpr ⟨nonzero, none⟩)]
      have pos : 0 < MEM_ALIGN_NEXT size := Nat.pos_of_ne_zero none
      have endmem := seen.endmem
      have block : (area (s.core.nextmem, MEM_ALIGN_NEXT size)).block =
          ⟨s.core.nextmem, MEM_ALIGN_NEXT size - headerSize, false⟩ := rfl
      obtain ⟨cs, inv⟩ := seen.carve aligned pos room block (Nat.zero_le _)
      refine ⟨_, cs, ⟨endmem, ⟨?_, ?_, ?_⟩, ?_⟩, inv.perm ?_, ?_⟩
      · dsimp only
        omega
      · dsimp only
        omega
      · exact (Nat.dvd_add_iff_right next.2.2).mp aligned
      · intro r mem
        rcases List.mem_cons.mp mem with rfl | mem
        · exact ⟨next.2.2, pos, aligned⟩
        · exact seen.areas r mem
      · rw [List.append_assoc]
        exact List.perm_middle.symm
      · intro a other
        have first : a ≠ s.core.nextmem := fun same =>
          other (.inr ⟨_, List.mem_cons_self, same.symm⟩)
        have second : a ≠ s.core.nextmem + MEM_ALIGN_NEXT size := fun same => other (.inl same)
        have known : ¬ s.Made a := by
          rintro (same | ⟨r, mem, same⟩)
          · exact first same
          · exact other (.inr ⟨r, List.mem_cons_of_mem _ mem, same⟩)
        rw [(carved_of_ne first second).1, (carved_of_ne first second).2]
        exact seen.agree a known

/-- With a header the size is still aligned. -/
theorem align_header {size : Nat} (small : size + 15 < 4294967296) :
    MEM_ALIGN_NEXT ((MEM_ALIGN_NEXT size + headerSize) % 4294967296) =
      MEM_ALIGN_NEXT size + headerSize := by
  unfold MEM_ALIGN_NEXT headerSize
  omega

theorem provide_cases (A : Arena) (c : Core) (s : Headers) {size : Nat}
    (small : size + 15 < 4294967296) (pos : 0 < c.nextmem) :
    (c.endmem - c.nextmem < MEM_ALIGN_NEXT size + headerSize ∧ provide A c s size = (0, c, s)) ∨
      (MEM_ALIGN_NEXT size + headerSize ≤ c.endmem - c.nextmem ∧
        provide A c s size = (c.nextmem + headerSize,
          ⟨c.nextmem + (MEM_ALIGN_NEXT size + headerSize), c.endmem⟩,
          (s.setLink c.nextmem A.heapp).setSize c.nextmem (MEM_ALIGN_NEXT size))) := by
  unfold provide
  dsimp only
  rcases chCoreAllocI_cases c ((MEM_ALIGN_NEXT size + headerSize) % 4294967296) with
    ⟨short, eq⟩ | ⟨room, eq⟩
  · rw [align_header small] at short
    rw [eq, if_pos rfl]
    exact .inl ⟨short, rfl⟩
  · rw [align_header small] at room eq
    rw [eq, if_neg pos.ne']
    exact .inr ⟨room, rfl⟩

/-- For the last sizes that can be aligned the sum with the header wraps around: the heap hands out
memory that it did not get from the core. -/
theorem provide_overflow (A : Arena) (c : Core) (s : Headers) {size : Nat}
    (large : 4294967280 < size ∧ size + 7 < 4294967296) (pos : 0 < c.nextmem) :
    (provide A c s size).1 = c.nextmem + headerSize ∧ (provide A c s size).2.1 = c := by
  have wraps : (MEM_ALIGN_NEXT size + headerSize) % 4294967296 = 0 := by
    unfold MEM_ALIGN_NEXT headerSize
    omega
  have got : chCoreAllocI c 0 = (c.nextmem, c) := by
    rcases chCoreAllocI_cases c 0 with ⟨short, -⟩ | ⟨-, eq⟩
    · exact absurd short (Nat.not_lt_zero _)
    · exact eq
  unfold provide
  dsimp only
  rw [wraps, got, if_neg pos.ne']
  exact ⟨rfl, rfl⟩

theorem Seen.more (seen : Seen A s g bs) {size : Nat} (small : size + 15 < 4294967296) :
    ∃ g' cs, Seen A { s with
      core := (provide A s.core s.heap size).2.1
      heap := (provide A s.core s.heap size).2.2
      live := if (provide A s.core s.heap size).1 = 0 then s.live
        else ⟨(provide A s.core s.heap size).1 - headerSize, size, MEM_ALIGN_NEXT size⟩ ::
          s.live } g' cs := by
  obtain ⟨large, aligned⟩ := align_le (show size + 7 < 4294967296 by omega)
  have next := seen.next
  have base := A.base_pos
  rcases provide_cases A s.core s.heap small (by omega) with ⟨-, eq⟩ | ⟨room, eq⟩
  · rw [eq, if_pos rfl]
    exact ⟨g, bs, seen⟩
  · have nonzero : s.core.nextmem + headerSize ≠ 0 := by
      unfold headerSize
      omega
    rw [eq, if_neg nonzero, Nat.add_sub_cancel]
    have endmem := seen.endmem
    have aligned' : 8 ∣ MEM_ALIGN_NEXT size + headerSize := by
      unfold headerSize
      omega
    have pos : 0 < MEM_ALIGN_NEXT size + headerSize := by
      unfold headerSize
      omega
    have block : (⟨s.core.nextmem, size, MEM_ALIGN_NEXT size⟩ : Live).block =
        ⟨s.core.nextmem, MEM_ALIGN_NEXT size + headerSize - headerSize, false⟩ := by
      rw [Nat.add_sub_cancel]
      rfl
    obtain ⟨cs, inv⟩ := seen.carve aligned' pos room block large
    refine ⟨carved A g s.core.nextmem (MEM_ALIGN_NEXT size + headerSize), cs,
      ⟨endmem, ⟨?_, ?_, ?_⟩, seen.areas⟩, ?_, ?_⟩
    · dsimp only
      omega
    · dsimp only
      omega
    · exact (Nat.dvd_add_iff_right next.2.2).mp aligned'
    · rw [List.append_assoc] at inv
      exact inv
    · intro a other
      have second : a ≠ s.core.nextmem + (MEM_ALIGN_NEXT size + headerSize) :=
        fun same => other (.inl same)
      by_cases first : a = s.core.nextmem
      · subst first
        rw [carved_first.1, carved_first.2, Nat.add_sub_cancel]
        exact ⟨Function.update_self _ _ _, Function.update_self _ _ _⟩
      · have known : ¬ s.Made a := by
          rintro (same | made)
          · exact first same
          · exact other (.inr made)
        rw [(carved_of_ne first second).1, (carved_of_ne first second).2]
        have agree := seen.agree a known
        exact ⟨(Function.update_of_ne first _ _).trans agree.1,
          (Function.update_of_ne first _ _).trans agree.2⟩

theorem Seen.step (seen : Seen A s g bs) (step : MemStep A s s') : ∃ g' cs, Seen A s' g' cs := by
  cases step with
  | core size small => exact seen.core small
  | alloc fuel size small result => exact seen.alloc small result
  | more size small => exact seen.more small
  | free fuel b mem result => exact seen.free mem result
  | write b mem a u v inside =>
      obtain ⟨g', seen'⟩ := seen.write mem inside
      exact ⟨g', bs, seen'⟩
  | writeArea r mem a u v aligned inside =>
      obtain ⟨g', seen'⟩ := seen.writeArea mem aligned inside
      exact ⟨g', bs, seen'⟩

/-- The core with nothing handed out, and the default heap without memory. -/
theorem seen_init (A : Arena) (h : Headers) :
    ∃ g bs, Seen A ⟨⟨A.base, A.base + A.size⟩, heapInit A h, [], []⟩ g bs := by
  have apart := A.apart
  have fits := A.fits
  have base := A.base_aligned
  have size := A.size_aligned
  have pos := A.base_pos
  have other : A.h_free ≠ A.base := by
    unfold Arena.h_free headerSize at *
    omega
  have rest : Core.rest ⟨A.base, A.base + A.size⟩ = [⟨A.base, 0, A.size - headerSize⟩] := by
    unfold Core.rest headerSize at *
    rw [if_pos (by dsimp only; omega), Nat.add_sub_cancel_left]
  refine ⟨((heapInit A h).setLink A.base A.heapp).setSize A.base (A.size - headerSize),
    [⟨A.base, A.size - headerSize, false⟩], ⟨rfl, ⟨le_rfl, Nat.le_add_right _ _, base⟩, by simp⟩,
    ?_, ?_⟩
  · change Inv A ⟨_, [] ++ ([] ++ Core.rest ⟨A.base, A.base + A.size⟩)⟩ _
    rw [List.nil_append, List.nil_append, rest]
    refine ⟨⟨⟨⟨rfl, ?_, ?_⟩, ?_, ?_, ?_, ?_⟩, .singleton _⟩, ?_, ?_, List.nodup_singleton _⟩
    · change 8 ∣ A.size - headerSize
      unfold headerSize
      omega
    · change A.base + headerSize + (A.size - headerSize) = A.base + A.size
      omega
    · intro b mem
      rw [List.mem_singleton.mp mem]
      exact Function.update_self _ _ _
    · change Chain 0 _ A.h_free []
      rw [chain_nil]
      exact (Function.update_of_ne other _ _).trans (Function.update_self _ _ _)
    · intro b mem _
      rw [List.mem_singleton.mp mem]
      exact Function.update_self _ _ _
    · exact (Function.update_of_ne other _ _).trans (Function.update_self _ _ _)
    · intro l mem
      rw [List.mem_singleton.mp mem]
      exact ⟨List.mem_singleton_self _, Nat.zero_le _⟩
    · intro b mem _
      exact ⟨_, List.mem_singleton_self _, by rw [List.mem_singleton.mp mem]⟩
  · intro a known
    have differs : a ≠ A.base := fun same => known (.inl same)
    exact ⟨(Function.update_of_ne differs _ _).symm, (Function.update_of_ne differs _ _).symm⟩

theorem MemReachable.seen (reachable : MemReachable A s) : ∃ g bs, Seen A s g bs := by
  obtain ⟨h, heap_base, heap_end, core, run⟩ := reachable
  rw [core] at run
  induction run with
  | refl => exact seen_init A h
  | tail _ step ih =>
      obtain ⟨g, bs, seen⟩ := ih
      exact seen.step step

end Steps

/-! ### What is where -/

/-- The blocks fill the core up to the memory that has not been handed out: the free ones are those
on the free list, in the order of their addresses and not adjacent, and the others are exactly
those handed out by the heap, with their headers, and the areas handed out by the core. -/
structure Accounts (A : Arena) (s : Memory) (bs : List Block) : Prop where
  tiled : Tiled s.core.nextmem A.base bs
  chain : Chain 0 s.heap.link A.h_free (freeList bs)
  sorted : (freeList bs).Pairwise (· < ·)
  apart : ∀ b ∈ bs, b.free = true → ∀ c ∈ bs, c.free = true → b.addr + headerSize + b.size ≠ c.addr
  sizes : ∀ b ∈ bs, b.free = true → s.heap.size b.addr = b.size
  live : ∀ l ∈ s.live, l.block ∈ bs ∧ s.heap.size l.header = l.granted ∧
    s.heap.link l.header = A.heapp ∧ l.requested ≤ l.granted
  areas : ∀ r ∈ s.areas, (⟨r.1, r.2 - headerSize, false⟩ : Block) ∈ bs ∧ headerSize ≤ r.2
  known : ∀ b ∈ bs, b.free = false →
    (∃ l ∈ s.live, l.header = b.addr) ∨ ∃ r ∈ s.areas, r.1 = b.addr
  distinct : (s.live.map (·.header) ++ s.areas.map (·.1)).Nodup

section Accounts

variable {A : Arena} {s : Memory} {g : Headers} {bs : List Block}

/-- The rest of the core is the last block. -/
theorem Seen.split (seen : Seen A s g bs) :
    ∃ cs, bs = cs ++ s.core.rest.map Live.block ∧ Tiled s.core.nextmem A.base cs := by
  have endmem := seen.endmem
  have next := seen.next
  rcases rest_cases s.core with ⟨more, eq⟩ | ⟨none, eq⟩
  · have last := (seen.inv.live ⟨s.core.nextmem, 0, s.core.endmem - s.core.nextmem - headerSize⟩
      (List.mem_append_right _ (List.mem_append_right _ (by rw [eq]; simp)))).1
    have inside := seen.inv.inside last
    obtain ⟨cs, rfl⟩ := seen.inv.last last (by
      have base := A.base_aligned
      have size := A.size_aligned
      unfold headerSize
      dsimp only
      omega)
    obtain ⟨mid, before, at_mid, -⟩ := tiled_append.mp seen.inv.tiled
    have at_mid : s.core.nextmem = mid := at_mid
    rw [← at_mid] at before
    exact ⟨cs, by rw [eq]; rfl, before⟩
  · have top : s.core.nextmem = A.base + A.size := by omega
    refine ⟨bs, by rw [eq, List.map_nil, List.append_nil], ?_⟩
    rw [top]
    exact seen.inv.tiled

theorem Seen.accounts (seen : Seen A s g bs) :
    ∃ cs, bs = cs ++ s.core.rest.map Live.block ∧ Accounts A s cs := by
  obtain ⟨cs, rfl, tiled⟩ := seen.split
  have inv := seen.inv
  have free : freeList (cs ++ s.core.rest.map Live.block) = freeList cs := by
    rcases rest_cases s.core with ⟨-, eq⟩ | ⟨-, eq⟩
    · rw [eq, List.map_singleton, freeList_append, freeList_cons_live rfl]
      exact List.append_nil _
    · rw [eq, List.map_nil, List.append_nil]
  have chain := seen.chain
  have sorted := inv.freeList_sorted
  rw [free] at chain sorted
  have distinct := inv.distinct
  unfold Memory.others at distinct
  rw [← List.append_assoc, List.map_append] at distinct
  obtain ⟨distinct, -, others⟩ := List.nodup_append.mp distinct
  -- what has been handed out is not the rest
  have old : ∀ l ∈ s.live ++ s.areas.map area, l.block ∈ cs := by
    intro l mem
    have mem' : l ∈ s.live ++ s.others := by
      unfold Memory.others
      rw [← List.append_assoc]
      exact List.mem_append_left _ mem
    rcases List.mem_append.mp (inv.live l mem').1 with here | rest
    · exact here
    · obtain ⟨l', rest, eq⟩ := List.mem_map.mp rest
      exact absurd (congrArg Block.addr eq.symm)
        (others _ (List.mem_map_of_mem mem) _ (List.mem_map_of_mem rest))
  refine ⟨cs, rfl, tiled, chain, sorted, fun b hb free_b c hc free_c => ?_, fun b mem free_b => ?_,
    fun l mem => ?_, fun r mem => ?_, fun b mem live => ?_, ?_⟩
  · exact inv.not_adjacent (List.mem_append_left _ hb) free_b (List.mem_append_left _ hc) free_c
  · exact seen.sizes (List.mem_append_left _ mem) free_b
  · have known := seen.agree _ (seen.live_not_made inv mem)
    obtain ⟨here, fits⟩ := inv.live l (List.mem_append_left _ mem)
    exact ⟨old l (List.mem_append_left _ mem), known.2.trans (inv.sizes _ here),
      known.1.trans (inv.owner _ here rfl), fits⟩
  · have sizes := seen.areas r mem
    refine ⟨old (area r) (List.mem_append_right _ (List.mem_map_of_mem mem)), ?_⟩
    unfold headerSize
    omega
  · obtain ⟨l, known, addr⟩ := inv.known b (List.mem_append_left _ mem) live
    rcases List.mem_append.mp known with known | known
    · exact .inl ⟨l, known, addr⟩
    · rcases List.mem_append.mp known with known | known
      · obtain ⟨r, here, rfl⟩ := List.mem_map.mp known
        exact .inr ⟨r, here, addr⟩
      · have rest := (rest_live (b := l.block) _ (List.mem_map_of_mem known)).2
        have below := tiled.mem mem
        have addr : l.block.addr = b.addr := addr
        unfold headerSize at below
        omega
  · rw [List.map_append, List.map_map] at distinct
    exact distinct

/-- The free blocks of an account are met by a search. -/
theorem Accounts.search (accounts : Accounts A s bs) {fuel : Nat} (enough : bs.length < fuel)
    (size : Nat) :
    Search A s.heap (MEM_ALIGN_NEXT size) A.h_free (bs.filter (·.free))
      (chHeapAlloc A s.heap fuel size) := by
  have base := A.base_pos
  have same : freeList (bs.filter (·.free)) = freeList bs := by
    unfold freeList
    rw [List.filter_filter]
    simp only [Bool.and_self]
  refine search_allocLoop (fun b mem => ?_) (fun b mem => ?_) ?_ ?_
  · obtain ⟨here, free⟩ := List.mem_filter.mp mem
    exact accounts.sizes b here free
  · have inside := accounts.tiled.mem (List.mem_of_mem_filter mem)
    omega
  · rw [same]
    exact accounts.chain
  · exact lt_of_le_of_lt (List.length_filter_le _ _) enough

/-- A request fails only if no free block is large enough and the core has no memory left. -/
theorem Accounts.alloc (accounts : Accounts A s bs) (pos : 0 < s.core.nextmem) {fuel size : Nat}
    (enough : bs.length < fuel) (small : size + 15 < 4294967296) :
    ∃ r, chHeapAllocDefault A s.core s.heap fuel size = some r ∧
      (r.1 = 0 ↔ (∀ b ∈ bs, b.free = true → b.size < MEM_ALIGN_NEXT size) ∧
        chCoreGetStatusX s.core < MEM_ALIGN_NEXT size + headerSize) := by
  unfold chHeapAllocDefault
  rcases accounts.search enough size with ⟨none, eq⟩ | ⟨xs, b, ys, split, free, large, -, eq⟩
  · have none' : ∀ b ∈ bs, b.free = true → b.size < MEM_ALIGN_NEXT size :=
      fun b mem free => none b (List.mem_filter.mpr ⟨mem, free⟩) free
    rw [eq, Option.map_some, if_pos rfl]
    rcases provide_cases A s.core s.heap small pos with ⟨short, given⟩ | ⟨room, given⟩
    · rw [given]
      exact ⟨_, rfl, fun _ => ⟨none', short⟩, fun _ => rfl⟩
    · rw [given]
      refine ⟨_, rfl, fun zero => ?_, fun short => absurd short.2 (not_lt.mpr room)⟩
      exact absurd zero (by unfold headerSize; dsimp only; omega)
  · have here : b ∈ bs := by
      have mem : b ∈ bs.filter (·.free) := by
        rw [split]
        simp
      exact List.mem_of_mem_filter mem
    rw [eq, Option.map_some, if_neg (pointer_ne_zero b)]
    exact ⟨_, rfl, fun zero => absurd zero (pointer_ne_zero b),
      fun short => absurd (short.1 b here free) (not_lt.mpr large)⟩

/-- The loop counts the blocks after `qp`. -/
theorem statusLoop_eq {h : Headers} {fs : List Block} {q fuel n sz : Nat}
    (chain : Chain 0 h.link q (fs.map (·.addr)))
    (blocks : ∀ b ∈ fs, 0 < b.addr ∧ h.size b.addr = b.size) (enough : fs.length < fuel) :
    statusLoop h fuel q n sz = some (n + fs.length, sz + (fs.map (·.size)).sum) := by
  induction fs generalizing q fuel n sz with
  | nil =>
      obtain ⟨fuel, rfl⟩ : ∃ k, fuel = k + 1 := ⟨fuel - 1, by simp at enough; omega⟩
      rw [statusLoop, if_neg (not_not.mpr (chain_nil.mp chain))]
      rfl
  | cons b fs ih =>
      rw [List.length_cons] at enough
      obtain ⟨fuel, rfl⟩ : ∃ k, fuel = k + 1 := ⟨fuel - 1, by omega⟩
      obtain ⟨first, rest⟩ := chain_cons.mp chain
      obtain ⟨pos, size⟩ := blocks b List.mem_cons_self
      have more : h.link q ≠ 0 := by
        rw [first]
        exact pos.ne'
      rw [statusLoop, if_pos more, first, size, ih rest
        (fun c mem => blocks c (List.mem_cons_of_mem _ mem)) (by omega)]
      rw [List.length_cons, List.map_cons, List.sum_cons, Nat.add_assoc, Nat.add_assoc,
        Nat.add_comm 1]

theorem Accounts.status (accounts : Accounts A s bs) {fuel : Nat} (enough : bs.length < fuel) :
    chHeapStatus A s.heap fuel = some ((bs.filter (·.free)).length,
      ((bs.filter (·.free)).map (·.size)).sum) := by
  have base := A.base_pos
  have blocks : ∀ b ∈ bs.filter (·.free), 0 < b.addr ∧ s.heap.size b.addr = b.size := by
    intro b mem
    obtain ⟨here, free⟩ := List.mem_filter.mp mem
    have inside := accounts.tiled.mem here
    exact ⟨by omega, accounts.sizes b here free⟩
  unfold chHeapStatus
  rw [statusLoop_eq accounts.chain blocks (lt_of_le_of_lt (List.length_filter_le _ _) enough),
    Nat.zero_add, Nat.zero_add]

end Accounts

/-- All memory is accounted for. In every state of a run the core that has been handed out is
filled with blocks that do not overlap: the areas of others and the blocks of the default heap,
those handed out and those on its free list. A request to the heap returns, and fails only if no
free block is large enough and the core has no memory left; a release returns; and
`chHeapStatus` tells the number of free blocks and their size. -/
theorem memory_accounted (A : Arena) (s : Memory) (reachable : MemReachable A s) :
    ∃ bs, Accounts A s bs ∧ A.base ≤ s.core.nextmem ∧ s.core.nextmem ≤ A.base + A.size ∧
      (∀ fuel size, bs.length < fuel → size + 15 < 4294967296 →
        ∃ r, chHeapAllocDefault A s.core s.heap fuel size = some r ∧
          (r.1 = 0 ↔ (∀ b ∈ bs, b.free = true → b.size < MEM_ALIGN_NEXT size) ∧
            chCoreGetStatusX s.core < MEM_ALIGN_NEXT size + headerSize)) ∧
      (∀ fuel, bs.length + 1 < fuel → ∀ l ∈ s.live,
        ∃ heap, chHeapFree s.heap fuel (l.header + headerSize) = some heap) ∧
      ∀ fuel, bs.length < fuel → chHeapStatus A s.heap fuel =
        some ((bs.filter (·.free)).length, ((bs.filter (·.free)).map (·.size)).sum) := by
  obtain ⟨g, bs, seen⟩ := reachable.seen
  obtain ⟨cs, rfl, accounts⟩ := seen.accounts
  have next := seen.next
  have base := A.base_pos
  have length : (cs ++ s.core.rest.map Live.block).length ≤ cs.length + 1 := by
    rcases rest_cases s.core with ⟨-, eq⟩ | ⟨-, eq⟩
    · rw [eq, List.length_append]
      rfl
    · rw [eq, List.length_append]
      exact Nat.le_succ _
  refine ⟨cs, accounts, next.1, next.2.1, fun fuel size enough small => ?_,
    fun fuel enough l mem => ?_, fun fuel enough => accounts.status enough⟩
  · exact accounts.alloc (by omega) enough small
  · obtain ⟨xs, ys, -, -, result⟩ := seen.release mem (lt_of_le_of_lt length enough)
    exact ⟨_, result⟩

/-! ### An example -/

/-- Somebody has got 16 bytes from the core. -/
def sampleTaken : Memory :=
  ⟨⟨4112, 4352⟩, heapInit sampleArena ⟨fun _ => 0, fun _ => 0⟩, [], [(4096, 16)]⟩

/-- The heap has got memory for a block of 20 bytes. -/
def sampleMemory : Memory :=
  ⟨⟨4144, 4352⟩, (sampleTaken.heap.setLink 4112 8192).setSize 4112 24, [⟨4112, 20, 24⟩],
    [(4096, 16)]⟩

theorem sampleMemory_reachable : MemReachable sampleArena sampleMemory := by
  have taken : MemStep sampleArena
      ⟨coreInit 4096 4352, heapInit sampleArena ⟨fun _ => 0, fun _ => 0⟩, [], []⟩ sampleTaken :=
    .core 16 (by decide)
  have more : MemStep sampleArena sampleTaken sampleMemory := .more 20 (by decide)
  exact ⟨_, 4096, 4352, rfl, (Relation.ReflTransGen.single taken).tail more⟩

theorem sampleMemory_accounted :
    ∃ bs, Accounts sampleArena sampleMemory bs ∧ (⟨4096, 8, false⟩ : Block) ∈ bs ∧
      (⟨4112, 24, false⟩ : Block) ∈ bs := by
  obtain ⟨bs, accounts, -⟩ := memory_accounted sampleArena sampleMemory sampleMemory_reachable
  exact ⟨bs, accounts, (accounts.areas (4096, 16) (List.mem_singleton_self _)).1,
    (accounts.live ⟨4112, 20, 24⟩ (List.mem_singleton_self _)).1⟩

end LtcOs.Heap
