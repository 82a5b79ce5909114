import LtcOs.Lib.SharedLinks
import LtcOs.Lib.PrioList
import Mathlib.Data.Fintype.Card

/-!
Queues and lists of threads on the links of the threads (`chschd.c`, `chschd.h`).

Every object that threads wait for has a header, and a thread has one pair of links with
which it can be on one queue or list. The functions here are what the other modules take
for operations on lists. `Represents` relates the links to all these lists at once; the
operations do not look at anything else, so it does not matter what the objects are.
-/

namespace LtcOs.Kernel.ThreadQueues

open LtcOs.Linked LtcOs.Prio

/-- A `threads_queue_t` or a `threads_list_t`. -/
inductive Header (Q L : Type) where
  | queue (tqp : Q)
  | list (tlp : L)
deriving DecidableEq, Repr

/-- What a link points to. -/
inductive Node (Q L T : Type) where
  | header (h : Header Q L)
  | thread (tp : T)
deriving DecidableEq, Repr

/-- The links, and `p_prio`; what is in the place of `p_prio` in a header may be anything. -/
structure Fields (Q L T : Type) where
  links : Links (Node Q L T)
  p_prio : Node Q L T → Nat

variable {Q L T : Type}

abbrev queueNode (tqp : Q) : Node Q L T := .header (.queue tqp)

abbrev listNode (tlp : L) : Node Q L T := .header (.list tlp)

/-! ### The code -/

section Code

variable [DecidableEq Q] [DecidableEq L] [DecidableEq T]

def queue_init (k : Links (Node Q L T)) (tqp : Q) : Links (Node Q L T) := k.empty (queueNode tqp)

def queue_isempty (k : Links (Node Q L T)) (tqp : Q) : Bool :=
  decide (k.next (queueNode tqp) = queueNode tqp)

def queue_notempty (k : Links (Node Q L T)) (tqp : Q) : Bool :=
  decide (k.next (queueNode tqp) ≠ queueNode tqp)

/-- The loop of `queue_prio_insert`, with a bound on the rounds. -/
def scan (s : Fields Q L T) (tp : T) (tqp : Q) : (fuel : Nat) → (cp : Node Q L T) →
    Option (Node Q L T)
  | 0, _ => none
  | fuel + 1, cp =>
      let cp := s.links.next cp
      if cp ≠ queueNode tqp ∧ s.p_prio (.thread tp) ≤ s.p_prio cp then scan s tp tqp fuel cp
      else some cp

def queue_prio_insert (s : Fields Q L T) (fuel : Nat) (tp : T) (tqp : Q) :
    Option (Links (Node Q L T)) :=
  (scan s tp tqp fuel (queueNode tqp)).map fun cp => s.links.insertBefore (.thread tp) cp

def queue_insert (k : Links (Node Q L T)) (tp : T) (tqp : Q) : Links (Node Q L T) :=
  k.insertBefore (.thread tp) (queueNode tqp)

def queue_fifo_remove (k : Links (Node Q L T)) (tqp : Q) : Node Q L T × Links (Node Q L T) :=
  let tp := k.next (queueNode tqp)
  let next := Function.update k.next (queueNode tqp) (k.next tp)
  (tp, ⟨next, Function.update k.prev (next (queueNode tqp)) (queueNode tqp)⟩)

def queue_lifo_remove (k : Links (Node Q L T)) (tqp : Q) : Node Q L T × Links (Node Q L T) :=
  let tp := k.prev (queueNode tqp)
  let prev := Function.update k.prev (queueNode tqp) (k.prev tp)
  (tp, ⟨Function.update k.next (prev (queueNode tqp)) (queueNode tqp), prev⟩)

def queue_dequeue (k : Links (Node Q L T)) (tp : T) : Node Q L T × Links (Node Q L T) :=
  (.thread tp, k.unlink (.thread tp))

def list_init (k : Links (Node Q L T)) (tlp : L) : Links (Node Q L T) :=
  { k with next := Function.update k.next (listNode tlp) (listNode tlp) }

def list_isempty (k : Links (Node Q L T)) (tlp : L) : Bool :=
  decide (k.next (listNode tlp) = listNode tlp)

def list_notempty (k : Links (Node Q L T)) (tlp : L) : Bool :=
  decide (k.next (listNode tlp) ≠ listNode tlp)

def list_insert (k : Links (Node Q L T)) (tp : T) (tlp : L) : Links (Node Q L T) :=
  let next := Function.update k.next (.thread tp) (k.next (listNode tlp))
  { k with next := Function.update next (listNode tlp) (.thread tp) }

def list_remove (k : Links (Node Q L T)) (tlp : L) : Node Q L T × Links (Node Q L T) :=
  let tp := k.next (listNode tlp)
  (tp, { k with next := Function.update k.next (listNode tlp) (k.next tp) })

/-- The calls of these functions, and a new priority for a thread. -/
inductive Op (Q L T : Type) where
  | queue_init (tqp : Q)
  | queue_isempty (tqp : Q)
  | queue_notempty (tqp : Q)
  | queue_prio_insert (tp : T) (tqp : Q)
  | queue_insert (tp : T) (tqp : Q)
  | queue_fifo_remove (tqp : Q)
  | queue_lifo_remove (tqp : Q)
  | queue_dequeue (tp : T)
  | list_init (tlp : L)
  | list_isempty (tlp : L)
  | list_notempty (tlp : L)
  | list_insert (tp : T) (tlp : L)
  | list_remove (tlp : L)
  | set_prio (tp : T) (prio : Nat)

/-- What a call returns. -/
inductive Answer (α : Type) where
  | done
  | holds (b : Bool)
  | removed (a : α)

def Answer.map {α β : Type} (f : α → β) : Answer α → Answer β
  | .done => .done
  | .holds b => .holds b
  | .removed a => .removed (f a)

def exec (fuel : Nat) (s : Fields Q L T) : Op Q L T → Option (Answer (Node Q L T) × Fields Q L T)
  | .queue_init tqp => some (.done, { s with links := queue_init s.links tqp })
  | .queue_isempty tqp => some (.holds (queue_isempty s.links tqp), s)
  | .queue_notempty tqp => some (.holds (queue_notempty s.links tqp), s)
  | .queue_prio_insert tp tqp =>
      (queue_prio_insert s fuel tp tqp).map fun links => (.done, { s with links := links })
  | .queue_insert tp tqp => some (.done, { s with links := queue_insert s.links tp tqp })
  | .queue_fifo_remove tqp =>
      let (tp, links) := queue_fifo_remove s.links tqp
      some (.removed tp, { s with links := links })
  | .queue_lifo_remove tqp =>
      let (tp, links) := queue_lifo_remove s.links tqp
      some (.removed tp, { s with links := links })
  | .queue_dequeue tp =>
      let (tp, links) := queue_dequeue s.links tp
      some (.removed tp, { s with links := links })
  | .list_init tlp => some (.done, { s with links := list_init s.links tlp })
  | .list_isempty tlp => some (.holds (list_isempty s.links tlp), s)
  | .list_notempty tlp => some (.holds (list_notempty s.links tlp), s)
  | .list_insert tp tlp => some (.done, { s with links := list_insert s.links tp tlp })
  | .list_remove tlp =>
      let (tp, links) := list_remove s.links tlp
      some (.removed tp, { s with links := links })
  | .set_prio tp prio =>
      some (.done, { s with p_prio := Function.update s.p_prio (.thread tp) prio })

/-- Calls one after the other, with the bound for each of them. -/
def execAll (fuel : Nat) (s : Fields Q L T) : List (Op Q L T) →
    Option (List (Answer (Node Q L T)) × Fields Q L T)
  | [] => some ([], s)
  | op :: ops =>
      (exec fuel s op).bind fun r => (execAll fuel r.2 ops).map fun rest => (r.1 :: rest.1, rest.2)

end Code

/-! ### Lists of threads -/

/-- The threads on each queue and list, `none` for what was not initialized. -/
structure Lists (Q L T : Type) where
  on : Header Q L → Option (List T)
  prio : T → Nat

namespace Lists

/-- The thread is on no queue or list. -/
def Free (a : Lists Q L T) (tp : T) : Prop := ∀ h l, a.on h = some l → tp ∉ l

variable [DecidableEq Q] [DecidableEq L] [DecidableEq T]

def set (a : Lists Q L T) (h : Header Q L) (l : List T) : Lists Q L T :=
  { a with on := Function.update a.on h (some l) }

/-- What the calls do, under the conditions their callers have to see to: a thread goes on a
list when it is on none, and nothing is removed from an empty list. The threads that are on
a list when it is initialized again are on none afterwards. -/
inductive Does (a : Lists Q L T) : Op Q L T → Answer T → Lists Q L T → Prop where
  | queue_init (tqp : Q) : Does a (.queue_init tqp) .done (a.set (.queue tqp) [])
  | queue_isempty (tqp : Q) {l : List T} (on : a.on (.queue tqp) = some l) :
      Does a (.queue_isempty tqp) (.holds (decide (l = []))) a
  | queue_notempty (tqp : Q) {l : List T} (on : a.on (.queue tqp) = some l) :
      Does a (.queue_notempty tqp) (.holds (decide (l ≠ []))) a
  | queue_prio_insert (tp : T) (tqp : Q) {l : List T} (on : a.on (.queue tqp) = some l)
      (free : a.Free tp) :
      Does a (.queue_prio_insert tp tqp) .done (a.set (.queue tqp) (insertBehind a.prio tp l))
  | queue_insert (tp : T) (tqp : Q) {l : List T} (on : a.on (.queue tqp) = some l)
      (free : a.Free tp) : Does a (.queue_insert tp tqp) .done (a.set (.queue tqp) (l ++ [tp]))
  | queue_fifo_remove (tqp : Q) {tp : T} {l : List T} (on : a.on (.queue tqp) = some (tp :: l)) :
      Does a (.queue_fifo_remove tqp) (.removed tp) (a.set (.queue tqp) l)
  | queue_lifo_remove (tqp : Q) {tp : T} {l : List T}
      (on : a.on (.queue tqp) = some (l ++ [tp])) :
      Does a (.queue_lifo_remove tqp) (.removed tp) (a.set (.queue tqp) l)
  | queue_dequeue (tp : T) (tqp : Q) {l : List T} (on : a.on (.queue tqp) = some l)
      (mem : tp ∈ l) : Does a (.queue_dequeue tp) (.removed tp) (a.set (.queue tqp) (l.erase tp))
  | list_init (tlp : L) : Does a (.list_init tlp) .done (a.set (.list tlp) [])
  | list_isempty (tlp : L) {l : List T} (on : a.on (.list tlp) = some l) :
      Does a (.list_isempty tlp) (.holds (decide (l = []))) a
  | list_notempty (tlp : L) {l : List T} (on : a.on (.list tlp) = some l) :
      Does a (.list_notempty tlp) (.holds (decide (l ≠ []))) a
  | list_insert (tp : T) (tlp : L) {l : List T} (on : a.on (.list tlp) = some l)
      (free : a.Free tp) : Does a (.list_insert tp tlp) .done (a.set (.list tlp) (tp :: l))
  | list_remove (tlp : L) {tp : T} {l : List T} (on : a.on (.list tlp) = some (tp :: l)) :
      Does a (.list_remove tlp) (.removed tp) (a.set (.list tlp) l)
  | set_prio (tp : T) (prio : Nat) :
      Does a (.set_prio tp prio) .done { a with prio := Function.update a.prio tp prio }

/-- A run of calls, with their answers. -/
inductive Runs : Lists Q L T → List (Op Q L T) → List (Answer T) → Lists Q L T → Prop where
  | nil (a : Lists Q L T) : Runs a [] [] a
  | cons {a b c : Lists Q L T} {op : Op Q L T} {ops : List (Op Q L T)} {answer : Answer T}
      {answers : List (Answer T)} (first : Does a op answer b) (rest : Runs b ops answers c) :
      Runs a (op :: ops) (answer :: answers) c

end Lists

/-! ### The links of the lists -/

def Linked (k : Links (Node Q L T)) : Header Q L → List T → Prop
  | .queue tqp, l => Ring k (queueNode tqp) (l.map .thread)
  | .list tlp, l => Round k.next (listNode tlp) (l.map .thread)

/-- The header and the threads. -/
def nodes (h : Header Q L) (l : List T) : List (Node Q L T) := .header h :: l.map .thread

/-- The links are those of all lists, and no thread is on two of them. -/
structure Represents (s : Fields Q L T) (a : Lists Q L T) : Prop where
  linked : ∀ h l, a.on h = some l → Linked s.links h l
  alone : ∀ h h' l l' t, a.on h = some l → a.on h' = some l' → t ∈ l → t ∈ l' → h = h'
  prio : ∀ t, s.p_prio (.thread t) = a.prio t

section Proofs

variable {s : Fields Q L T} {a : Lists Q L T} {k k' : Links (Node Q L T)} {h h' : Header Q L}
  {l m xs ys : List T} {tp : T} {tqp : Q} {tlp : L} {n p : Node Q L T}

theorem Linked.round (linked : Linked k h l) : Round k.next (.header h) (l.map .thread) := by
  cases h with
  | queue tqp => exact Ring.round linked
  | list tlp => exact linked

theorem Linked.nodup (linked : Linked k h l) : l.Nodup :=
  (List.nodup_cons.mp linked.round.nodup).2.of_map _

theorem Linked.isempty (linked : Linked k h l) : k.next (.header h) = .header h ↔ l = [] :=
  linked.round.nil_iff.trans List.map_eq_nil_iff

/-- Links of other nodes do not matter. -/
theorem Linked.congr (linked : Linked k h l) (next : ∀ n ∈ nodes h l, k'.next n = k.next n)
    (prev : ∀ n ∈ nodes h l, k'.prev n = k.prev n) : Linked k' h l := by
  cases h with
  | queue tqp => exact Ring.congr linked next prev
  | list tlp => exact Round.congr linked next

theorem mem_nodes : n ∈ nodes h l ↔ n = .header h ∨ ∃ t ∈ l, .thread t = n := by
  rw [nodes, List.mem_cons, List.mem_map]

theorem fresh_node (outside : tp ∉ l) : (Node.thread tp : Node Q L T) ∉ nodes h l := by
  rw [mem_nodes]
  rintro (eq | ⟨t, mem, eq⟩)
  · cases eq
  · cases eq
    exact outside mem

/-- Two lists have no node in common. -/
theorem Represents.disjoint (rep : Represents s a) (on : a.on h = some l) (on' : a.on h' = some m)
    (other : h' ≠ h) (mem : n ∈ nodes h' m) : n ∉ nodes h l := by
  intro mem'
  rcases mem_nodes.mp mem with rfl | ⟨t, ht, rfl⟩
  · rcases mem_nodes.mp mem' with eq | ⟨t, -, eq⟩
    · cases eq
      exact other rfl
    · cases eq
  · rcases mem_nodes.mp mem' with eq | ⟨t', ht', eq⟩
    · cases eq
    · cases eq
      exact other (rep.alone h' h m l t on' on ht ht')

variable [DecidableEq Q] [DecidableEq L] [DecidableEq T]

omit [DecidableEq T] in
/-- One list changes, and the links of the others stay. -/
theorem Represents.set (rep : Represents s a) (here : Linked k h l)
    (apart : ∀ h' m t, h' ≠ h → a.on h' = some m → t ∈ l → t ∉ m)
    (next : ∀ h' m n, h' ≠ h → a.on h' = some m → n ∈ nodes h' m → k.next n = s.links.next n)
    (prev : ∀ h' m n, h' ≠ h → a.on h' = some m → n ∈ nodes h' m → k.prev n = s.links.prev n) :
    Represents { s with links := k } (a.set h l) := by
  have on_self : ∀ {m}, (a.set h l).on h = some m → l = m := by
    intro m on
    unfold Lists.set at on
    dsimp only at on
    rw [Function.update_self] at on
    exact Option.some.inj on
  have on_other : ∀ {h' m}, h' ≠ h → (a.set h l).on h' = some m → a.on h' = some m := by
    intro h' m other on
    unfold Lists.set at on
    dsimp only at on
    rwa [Function.update_of_ne other] at on
  constructor
  · intro h' m on
    by_cases same : h' = h
    · subst same
      rw [← on_self on]
      exact here
    · have old := on_other same on
      exact (rep.linked h' m old).congr (next h' m · same old) (prev h' m · same old)
  · intro h₁ h₂ l₁ l₂ t on₁ on₂ mem₁ mem₂
    by_cases first : h₁ = h
    · by_cases second : h₂ = h
      · exact first.trans second.symm
      · subst first
        rw [← on_self on₁] at mem₁
        exact absurd mem₂ (apart h₂ l₂ t second (on_other second on₂) mem₁)
    · by_cases second : h₂ = h
      · subst second
        rw [← on_self on₂] at mem₂
        exact absurd mem₁ (apart h₁ l₁ t first (on_other first on₁) mem₂)
      · exact rep.alone h₁ h₂ l₁ l₂ t (on_other first on₁) (on_other second on₂) mem₁ mem₂
  · exact rep.prio

omit [DecidableEq T] in
/-- One list changes by the threads that were on it and a free one, and so do the links. -/
theorem Represents.edit (rep : Represents s a) (on : a.on h = some m) (here : Linked k h l)
    (x : Node Q L T) (away : ∀ h' m', h' ≠ h → a.on h' = some m' → x ∉ nodes h' m')
    (members : ∀ t ∈ l, t ∈ m ∨ .thread t = x)
    (next : ∀ n, n ≠ x → n ∉ nodes h m → k.next n = s.links.next n)
    (prev : ∀ n, n ≠ x → n ∉ nodes h m → k.prev n = s.links.prev n) :
    Represents { s with links := k } (a.set h l) := by
  apply rep.set here
  · intro h' m' t other on' mem mem'
    rcases members t mem with old | rfl
    · exact other (rep.alone h' h m' m t on' on mem' old)
    · exact away h' m' other on' (mem_nodes.mpr (.inr ⟨t, mem', rfl⟩))
  · intro h' m' n other on' mem
    refine next n ?_ (rep.disjoint on on' other mem)
    rintro rfl
    exact away h' m' other on' mem
  · intro h' m' n other on' mem
    refine prev n ?_ (rep.disjoint on on' other mem)
    rintro rfl
    exact away h' m' other on' mem

omit [DecidableEq Q] [DecidableEq L] [DecidableEq T] in
theorem free_away (free : a.Free tp) : ∀ h' m, h' ≠ h → a.on h' = some m →
    (Node.thread tp : Node Q L T) ∉ nodes h' m := fun h' m _ on => fresh_node (free h' m on)

omit [DecidableEq Q] [DecidableEq L] [DecidableEq T] in
theorem Represents.member_away (rep : Represents s a) (on : a.on h = some l) (mem : n ∈ nodes h l) :
    ∀ h' m, h' ≠ h → a.on h' = some m → n ∉ nodes h' m := fun _ _ other on' mem' =>
  rep.disjoint on on' other mem' mem

/-- A thread linked in at its place in a queue. -/
theorem Represents.insert (rep : Represents s a) (on : a.on (.queue tqp) = some (xs ++ ys))
    (free : a.Free tp) (first : (ys.map Node.thread ++ [queueNode tqp]).head? = some p) :
    Represents { s with links := s.links.insertBefore (.thread tp) p }
      (a.set (.queue tqp) (xs ++ tp :: ys)) := by
  have ring : Ring s.links (queueNode tqp) (xs.map .thread ++ ys.map .thread) := by
    rw [← List.map_append]
    exact rep.linked _ _ on
  have fresh : (Node.thread tp : Node Q L T) ∉ queueNode tqp :: (xs.map .thread ++ ys.map .thread) := by
    rw [← List.map_append]
    exact fresh_node (h := .queue tqp) (free _ _ on)
  have inserted := ring.insertBefore fresh first
  have inside : p ∈ nodes (.queue tqp) (xs ++ ys) := by
    have mem := List.mem_of_mem_head? first
    rw [List.mem_append, List.mem_singleton] at mem
    rw [nodes, List.map_append, List.mem_cons, List.mem_append]
    exact mem.symm.imp_right .inr
  have whole : Ring s.links (queueNode tqp) ((xs ++ ys).map .thread) := rep.linked _ _ on
  have before : s.links.prev p ∈ nodes (.queue tqp) (xs ++ ys) := whole.mem_prev inside
  refine rep.edit on (h := .queue tqp) (l := xs ++ tp :: ys) ?_ (.thread tp) (free_away free) ?_ ?_ ?_
  · change Ring _ (queueNode tqp) ((xs ++ tp :: ys).map .thread)
    rw [List.map_append, List.map_cons]
    exact inserted
  · intro t mem
    rw [List.mem_append, List.mem_cons] at mem
    rw [List.mem_append]
    rcases mem with mem | rfl | mem
    · exact .inl (.inl mem)
    · exact .inr rfl
    · exact .inl (.inr mem)
  · intro n other outside
    rw [insertBefore_next, Function.update_of_ne, Function.update_of_ne other]
    rintro rfl
    exact outside before
  · intro n other outside
    rw [insertBefore_prev, Function.update_of_ne, Function.update_of_ne other]
    rintro rfl
    exact outside inside

/-- A thread linked out of a queue. -/
theorem Represents.unlink (rep : Represents s a) (on : a.on (.queue tqp) = some (xs ++ tp :: ys)) :
    Represents { s with links := s.links.unlink (.thread tp) } (a.set (.queue tqp) (xs ++ ys)) := by
  have whole : Ring s.links (queueNode tqp) ((xs ++ tp :: ys).map .thread) := rep.linked _ _ on
  have ring : Ring s.links (queueNode tqp) (xs.map .thread ++ .thread tp :: ys.map .thread) := by
    rw [← List.map_cons, ← List.map_append]
    exact whole
  have mem : (Node.thread tp : Node Q L T) ∈ nodes (.queue tqp) (xs ++ tp :: ys) :=
    mem_nodes.mpr (.inr ⟨tp, by simp, rfl⟩)
  have after := whole.mem_next mem
  have before := whole.mem_prev mem
  refine rep.edit on (h := .queue tqp) (l := xs ++ ys) ?_ (.thread tp) (rep.member_away on mem)
    ?_ ?_ ?_
  · change Ring _ (queueNode tqp) ((xs ++ ys).map .thread)
    rw [List.map_append]
    exact ring.unlink
  · intro t here
    rw [List.mem_append] at here ⊢
    exact .inl (here.imp_right (List.mem_cons_of_mem _))
  · intro n _ outside
    rw [unlink_next, Function.update_of_ne]
    rintro rfl
    exact outside before
  · intro n _ outside
    rw [unlink_prev _ (ring.prev_ne _), Function.update_of_ne]
    rintro rfl
    exact outside after

omit [DecidableEq T] in
/-- A header is initialized. -/
theorem Represents.init (rep : Represents s a) (here : Linked k h [])
    (next : ∀ n, n ≠ .header h → k.next n = s.links.next n)
    (prev : ∀ n, n ≠ .header h → k.prev n = s.links.prev n) :
    Represents { s with links := k } (a.set h []) := by
  have other : ∀ h' m n, h' ≠ h → n ∈ nodes (T := T) h' m → n ≠ .header h := by
    rintro h' m n other mem rfl
    rcases mem_nodes.mp mem with eq | ⟨t, -, eq⟩
    · cases eq
      exact other rfl
    · cases eq
  apply rep.set here
  · exact fun _ _ _ _ _ mem => absurd mem List.not_mem_nil
  · exact fun h' m n ne _ mem => next n (other h' m n ne mem)
  · exact fun h' m n ne _ mem => prev n (other h' m n ne mem)

/-- A thread pushed on a list. -/
theorem Represents.push (rep : Represents s a) (on : a.on (.list tlp) = some l)
    (free : a.Free tp) :
    Represents { s with links := list_insert s.links tp tlp } (a.set (.list tlp) (tp :: l)) := by
  have round : Round s.links.next (listNode tlp) (l.map .thread) := rep.linked _ _ on
  have pushed := round.push (fresh_node (h := .list tlp) (free _ _ on))
  refine rep.edit on (h := .list tlp) (l := tp :: l) pushed (.thread tp) (free_away free) ?_ ?_ ?_
  · intro t mem
    rcases List.mem_cons.mp mem with rfl | mem
    · exact .inr rfl
    · exact .inl mem
  · intro n other outside
    change Function.update (Function.update _ _ _) _ _ n = _
    rw [Function.update_of_ne, Function.update_of_ne other]
    rintro rfl
    exact outside List.mem_cons_self
  · exact fun _ _ _ => rfl

/-- The thread on top of a list popped. -/
theorem Represents.pop (rep : Represents s a) (on : a.on (.list tlp) = some (tp :: l)) :
    (list_remove s.links tlp).1 = .thread tp ∧
      Represents { s with links := (list_remove s.links tlp).2 } (a.set (.list tlp) l) := by
  have round : Round s.links.next (listNode tlp) (.thread tp :: l.map .thread) := rep.linked _ _ on
  have popped := round.pop
  have top : (list_remove s.links tlp).1 = .thread tp := round.first
  have links : (list_remove s.links tlp).2 = { s.links with
      next := Function.update s.links.next (listNode tlp) (s.links.next (.thread tp)) } := by
    unfold list_remove at top ⊢
    dsimp only at top ⊢
    rw [top]
  have mem : (Node.thread tp : Node Q L T) ∈ nodes (.list tlp) (tp :: l) :=
    mem_nodes.mpr (.inr ⟨tp, List.mem_cons_self, rfl⟩)
  refine ⟨top, ?_⟩
  rw [links]
  refine rep.edit on (h := .list tlp) (l := l) popped (.thread tp) (rep.member_away on mem) ?_ ?_ ?_
  · exact fun t here => .inl (List.mem_cons_of_mem _ here)
  · intro n _ outside
    refine Function.update_of_ne ?_ _ _
    rintro rfl
    exact outside List.mem_cons_self
  · exact fun _ _ _ => rfl

/-- The first thread of a queue. -/
theorem fifo_remove_eq (ring : Ring k (queueNode tqp) (.thread tp :: l.map .thread)) :
    queue_fifo_remove k tqp = (.thread tp, k.unlink (.thread tp)) := by
  have next : k.next (queueNode tqp) = .thread tp := ring.round.first
  have prev : k.prev (.thread tp) = queueNode tqp := ring.prev_first
  unfold queue_fifo_remove Links.unlink
  simp [next, prev]

/-- The last thread of a queue. -/
theorem lifo_remove_eq (ring : Ring k (queueNode tqp) (l.map .thread ++ [.thread tp])) :
    queue_lifo_remove k tqp = (.thread tp, k.unlink (.thread tp)) := by
  have prev : k.prev (queueNode tqp) = .thread tp := ring.prev_header
  have next : k.next (.thread tp) = queueNode tqp := ring.next_end
  have self : k.prev (.thread tp) ≠ .thread tp := Ring.prev_ne [] ring
  have unlinked : k.unlink (.thread tp) = ⟨_, _⟩ :=
    congrArg₂ Links.mk (unlink_next k (.thread tp)) (unlink_prev k self)
  unfold queue_lifo_remove
  simp only [prev, Function.update_self]
  rw [unlinked, next]

omit [DecidableEq Q] [DecidableEq L] [DecidableEq T] in
/-- Where a thread goes in a queue, in any order the queue may be in. -/
theorem insertBehind_split (prio : T → Nat) (tp : T) (l : List T) :
    ∃ xs ys, l = xs ++ ys ∧ insertBehind prio tp l = xs ++ tp :: ys ∧
      (∀ t ∈ xs, prio tp ≤ prio t) ∧ ∀ y ∈ ys.head?, prio y < prio tp := by
  refine ⟨l.takeWhile (fun b => decide (¬ prio b < prio tp)),
    l.dropWhile (fun b => decide (¬ prio b < prio tp)), ?_, ?_, ?_, ?_⟩
  · exact List.takeWhile_append_dropWhile.symm
  · exact List.orderedInsert_eq_take_drop _ tp l
  · intro t mem
    simpa using List.all_eq_true.mp List.all_takeWhile t mem
  · intro y head
    have stops := List.head?_dropWhile_not (fun b => decide (¬ prio b < prio tp)) l
    rw [Option.mem_def.mp head] at stops
    simpa using stops

/-- The scan passes the threads of at least the priority, and stops at the node behind them. -/
theorem scan_eq {a : Node Q L T} (fuel : Nat)
    (path : (a :: (xs ++ ys).map Node.thread).map s.links.next =
      (xs ++ ys).map Node.thread ++ [queueNode tqp])
    (passes : ∀ t ∈ xs, s.p_prio (.thread tp) ≤ s.p_prio (.thread t))
    (stops : ∀ y ∈ ys.head?, s.p_prio (.thread y) < s.p_prio (.thread tp))
    (enough : xs.length < fuel) :
    ∃ p, scan s tp tqp fuel a = some p ∧ (ys.map Node.thread ++ [queueNode tqp]).head? = some p := by
  obtain ⟨fuel, rfl⟩ : ∃ j, fuel = j + 1 := ⟨fuel - 1, by omega⟩
  induction xs generalizing a fuel with
  | nil =>
      cases ys with
      | nil =>
          have next : s.links.next a = queueNode tqp := (List.cons.inj path).1
          refine ⟨queueNode tqp, ?_, rfl⟩
          rw [scan, next]
          exact if_neg fun more => more.1 rfl
      | cons y ys =>
          have next : s.links.next a = .thread y := (List.cons.inj path).1
          refine ⟨.thread y, ?_, rfl⟩
          rw [scan, next]
          exact if_neg fun more => absurd (stops y rfl) (not_lt.mpr more.2)
  | cons x xs ih =>
      have next : s.links.next a = .thread x := (List.cons.inj path).1
      rw [List.length_cons] at enough
      obtain ⟨fuel, rfl⟩ : ∃ j, fuel = j + 1 := ⟨fuel - 1, by omega⟩
      obtain ⟨p, found, first⟩ := ih (a := .thread x) (List.cons.inj path).2
        (fun t mem => passes t (List.mem_cons_of_mem _ mem)) fuel (by omega)
      refine ⟨p, ?_, first⟩
      rw [scan, next]
      refine (if_pos ⟨?_, passes x List.mem_cons_self⟩).trans found
      exact fun eq => absurd eq (by simp)

theorem Represents.prio_insert (rep : Represents s a) (on : a.on (.queue tqp) = some l)
    (free : a.Free tp) (fuel : Nat) (enough : l.length < fuel) :
    ∃ links, queue_prio_insert s fuel tp tqp = some links ∧
      Represents { s with links := links } (a.set (.queue tqp) (insertBehind a.prio tp l)) := by
  obtain ⟨xs, ys, rfl, insert, passes, stops⟩ := insertBehind_split a.prio tp l
  have ring : Ring s.links (queueNode tqp) ((xs ++ ys).map .thread) := rep.linked _ _ on
  rw [List.length_append] at enough
  obtain ⟨p, found, first⟩ := scan_eq fuel ring.next (by simpa only [rep.prio] using passes)
    (by simpa only [rep.prio] using stops) (by omega)
  refine ⟨s.links.insertBefore (.thread tp) p, ?_, ?_⟩
  · rw [queue_prio_insert, found]
    rfl
  · rw [insert]
    exact rep.insert on free first

/-- One call. -/
theorem Represents.step [Fintype T] {fuel : Nat} (enough : Fintype.card T < fuel)
    (rep : Represents s a) {op : Op Q L T} {answer : Answer T} {b : Lists Q L T}
    (does : a.Does op answer b) :
    ∃ s', exec fuel s op = some (answer.map .thread, s') ∧ Represents s' b := by
  cases does with
  | queue_init tqp =>
      refine ⟨_, rfl, rep.init (ring_empty _ _) ?_ ?_⟩
      · exact fun n other => Function.update_of_ne other _ _
      · exact fun n other => Function.update_of_ne other _ _
  | queue_isempty tqp on =>
      refine ⟨s, ?_, rep⟩
      simp only [exec, queue_isempty, (rep.linked _ _ on).isempty, Answer.map]
  | queue_notempty tqp on =>
      refine ⟨s, ?_, rep⟩
      simp only [exec, queue_notempty, ne_eq, (rep.linked _ _ on).isempty, Answer.map]
  | queue_prio_insert tp tqp on free =>
      have length := (rep.linked _ _ on).nodup.length_le_card
      obtain ⟨links, inserted, rep'⟩ := rep.prio_insert on free fuel (by omega)
      refine ⟨_, ?_, rep'⟩
      rw [exec, inserted]
      rfl
  | @queue_insert tp tqp l on free =>
      refine ⟨_, rfl, ?_⟩
      rw [← List.append_nil l] at on
      exact rep.insert on free rfl
  | @queue_fifo_remove tqp tp l on =>
      have ring : Ring s.links (queueNode tqp) (.thread tp :: l.map .thread) := rep.linked _ _ on
      have first : a.on (.queue tqp) = some ([] ++ tp :: l) := on
      refine ⟨{ s with links := s.links.unlink (.thread tp) }, ?_, rep.unlink first⟩
      rw [exec, fifo_remove_eq ring]
      rfl
  | @queue_lifo_remove tqp tp l on =>
      have whole : Ring s.links (queueNode tqp) ((l ++ [tp]).map .thread) := rep.linked _ _ on
      rw [List.map_append] at whole
      have removed := rep.unlink on
      rw [List.append_nil] at removed
      refine ⟨{ s with links := s.links.unlink (.thread tp) }, ?_, removed⟩
      rw [exec, lifo_remove_eq whole]
      rfl
  | @queue_dequeue tp tqp l on mem =>
      obtain ⟨xs, ys, rfl⟩ := List.append_of_mem mem
      have nodup := (rep.linked _ _ on).nodup
      have outside : tp ∉ xs := fun here =>
        (List.nodup_cons.mp (List.nodup_middle.mp nodup)).1 (List.mem_append.mpr (.inl here))
      rw [List.erase_append_right _ outside, List.erase_cons_head]
      exact ⟨_, rfl, rep.unlink on⟩
  | list_init tlp =>
      refine ⟨_, rfl, rep.init (round_empty _ _) ?_ ?_⟩
      · exact fun n other => Function.update_of_ne other _ _
      · exact fun n _ => rfl
  | list_isempty tlp on =>
      refine ⟨s, ?_, rep⟩
      simp only [exec, list_isempty, (rep.linked _ _ on).isempty, Answer.map]
  | list_notempty tlp on =>
      refine ⟨s, ?_, rep⟩
      simp only [exec, list_notempty, ne_eq, (rep.linked _ _ on).isempty, Answer.map]
  | list_insert tp tlp on free => exact ⟨_, rfl, rep.push on free⟩
  | list_remove tlp on =>
      obtain ⟨top, rep'⟩ := rep.pop on
      refine ⟨_, ?_, rep'⟩
      rw [exec]
      simp only [top, Answer.map]
  | set_prio tp prio =>
      refine ⟨_, rfl, rep.linked, rep.alone, fun t => ?_⟩
      change Function.update s.p_prio (.thread tp) prio (.thread t) = Function.update a.prio tp prio t
      by_cases same : t = tp
      · rw [same, Function.update_self, Function.update_self]
      · have other : (Node.thread t : Node Q L T) ≠ .thread tp := fun eq => same (by cases eq; rfl)
        rw [Function.update_of_ne other, Function.update_of_ne same, rep.prio]

end Proofs

/-! ### Runs -/

section Runs

variable [DecidableEq Q] [DecidableEq L] [DecidableEq T]

/-- Nothing is initialized. -/
def Lists.unused (prio : T → Nat) : Lists Q L T := ⟨fun _ => none, prio⟩

/-- The code on the links refines the lists. In every run that starts before anything is
initialized, with any contents of the links, and in which the callers keep to the conditions
of the calls, each call returns, and with the answer it has on lists; at the end the links
are those of all lists. A scan takes at most one round more than there are threads. -/
theorem queues_refine_lists [Fintype T] (fuel : Nat) (enough : Fintype.card T < fuel)
    (s : Fields Q L T) (ops : List (Op Q L T)) (answers : List (Answer T)) (a : Lists Q L T)
    (runs : Lists.Runs (.unused fun t => s.p_prio (.thread t)) ops answers a) :
    ∃ s', execAll fuel s ops = some (answers.map (Answer.map .thread), s') ∧ Represents s' a := by
  have start : Represents s (.unused fun t => s.p_prio (.thread t)) :=
    ⟨fun _ _ on => absurd on (by simp [Lists.unused]),
      fun _ _ _ _ _ on => absurd on (by simp [Lists.unused]), fun _ => rfl⟩
  revert start
  generalize Lists.unused (fun t => s.p_prio (.thread t)) = b at runs
  intro rep
  induction runs generalizing s with
  | nil => exact ⟨s, rfl, rep⟩
  | cons first _ ih =>
      obtain ⟨s₁, called, rep₁⟩ := rep.step enough first
      obtain ⟨s', rest, final⟩ := ih s₁ rep₁
      refine ⟨s', ?_, final⟩
      rw [execAll, called, Option.bind_some, rest]
      rfl

/-- The calls on one queue of two threads, of which the second goes ahead of the first. -/
def sampleOps : List (Op Unit Unit Bool) :=
  [.queue_init (), .set_prio false 5, .set_prio true 9, .queue_prio_insert false (),
    .queue_prio_insert true (), .queue_fifo_remove (), .queue_notempty ()]

def sampleFields : Fields Unit Unit Bool := ⟨⟨id, id⟩, fun _ => 0⟩

theorem sample_runs (a : Lists Unit Unit Bool) (unused : a.on = fun _ => none) :
    ∃ b, a.Runs sampleOps [.done, .done, .done, .done, .done, .removed true, .holds true] b ∧
      b.on (.queue ()) = some [false] := by
  obtain ⟨on, prio⟩ := a
  obtain rfl : on = fun _ => none := unused
  refine ⟨_, .cons (.queue_init ()) (.cons (.set_prio false 5) (.cons (.set_prio true 9)
    (.cons (.queue_prio_insert false () (l := []) rfl ?_)
      (.cons (.queue_prio_insert true () (l := [false]) rfl ?_)
        (.cons (.queue_fifo_remove () (l := [false]) ?_)
          (.cons (.queue_notempty () (l := [false]) rfl) (.nil _))))))), rfl⟩
  · intro h l on
    cases h with
    | queue u =>
        obtain rfl : [] = l := Option.some.inj on
        exact List.not_mem_nil
    | list u => cases on
  · intro h l on
    cases h with
    | queue u =>
        obtain rfl : [false] = l := Option.some.inj on
        decide
    | list u => cases on
  · rfl

theorem sample_refines :
    ∃ s' a, execAll 3 sampleFields sampleOps =
      some ([.done, .done, .done, .done, .done, .removed (.thread true), .holds true], s') ∧
      Represents s' a ∧ a.on (.queue ()) = some [false] := by
  obtain ⟨a, runs, last⟩ := sample_runs (.unused fun t => sampleFields.p_prio (.thread t)) rfl
  obtain ⟨s', ran, rep⟩ := queues_refine_lists 3 (by decide) sampleFields sampleOps _ a runs
  exact ⟨s', a, ran, rep, last⟩

end Runs

end LtcOs.Kernel.ThreadQueues
