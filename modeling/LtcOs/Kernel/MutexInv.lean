import LtcOs.Kernel.Mutex
import LtcOs.Lib.Waiting

/-!
Invariants of mutexes and condition variables.

`Queues` is about the waiting threads and the queues they are on, `Owners` about who
owns which mutex, and `Inherits` about the priority of one thread against those of the
threads that wait for it.
-/

namespace LtcOs.Kernel

open LtcOs.Prio LtcOs.Waiting

variable {T M C : Type}

namespace Mtx

/-! ### Queues -/

/-- The mutex a thread waits for. -/
def mtxOf : Option (Wait M C) → Option M
  | some (.WTMTX m) => some m
  | _ => none

/-- The condition variable a thread waits for. -/
def condOf : Option (Wait M C) → Option C
  | some (.WTCOND c) => some c
  | _ => none

theorem mtxOf_eq_some {w : Option (Wait M C)} {m : M} : mtxOf w = some m ↔ w = some (.WTMTX m) := by
  cases w with
  | none => simp [mtxOf]
  | some w => cases w <;> simp [mtxOf]

theorem condOf_eq_some {w : Option (Wait M C)} {c : C} :
    condOf w = some c ↔ w = some (.WTCOND c) := by
  cases w with
  | none => simp [condOf]
  | some w => cases w <;> simp [condOf]

/-- Every waiting thread but `out` is on the queue it waits on, and the queues are in
order. -/
structure Queues (out : Option T) (waiting : T → Option (Wait M C)) (prio stamp : T → Nat)
    (clock : Nat) (mq : M → List T) (cq : C → List T) : Prop where
  onM : Queued out (fun t => mtxOf (waiting t)) mq
  onC : Queued out (fun t => condOf (waiting t)) cq
  served : ∀ m, Served prio stamp (mq m)
  order : ∀ c, Descending prio (cq c)
  stamps : ∀ m, ∀ t ∈ mq m, stamp t < clock

section Queues

variable {out : Option T} {waiting waiting' : T → Option (Wait M C)}
  {prio prio' stamp stamp' : T → Nat} {clock clock' : Nat} {mq : M → List T} {cq : C → List T}
  {tp : T} {mp : M} {cp : C}

/-- What belongs to a thread outside does not matter. -/
theorem Queues.congr (queues : Queues out waiting prio stamp clock mq cq)
    (same : ∀ t, some t ≠ out → waiting' t = waiting t ∧ prio' t = prio t ∧ stamp' t = stamp t)
    (later : clock ≤ clock') : Queues out waiting' prio' stamp' clock' mq cq := by
  constructor
  · apply queues.onM.congr
    intro t other
    rw [(same t other).1]
  · apply queues.onC.congr
    intro t other
    rw [(same t other).1]
  · intro m
    apply (queues.served m).congr
    intro t ht
    exact (same t (queues.onM.inside ht)).2
  · intro c
    apply (queues.order c).congr
    intro t ht
    exact (same t (queues.onC.inside ht)).2.1
  · intro m t ht
    rw [(same t (queues.onM.inside ht)).2.2]
    exact lt_of_lt_of_le (queues.stamps m t ht) later

/-- A thread that waits on no queue. -/
def Off (w : Option (Wait M C)) : Prop := mtxOf w = none ∧ condOf w = none

theorem off_none : Off (none : Option (Wait M C)) := ⟨rfl, rfl⟩

theorem off_other : Off (some .OTHER : Option (Wait M C)) := ⟨rfl, rfl⟩

theorem Queues.leave (queues : Queues none waiting prio stamp clock mq cq) (off : Off (waiting tp)) :
    Queues (some tp) waiting prio stamp clock mq cq :=
  ⟨queues.onM.leave off.1, queues.onC.leave off.2, queues.served, queues.order, queues.stamps⟩

theorem Queues.enter (queues : Queues (some tp) waiting prio stamp clock mq cq)
    (off : Off (waiting tp)) :
    Queues none waiting prio stamp clock mq cq :=
  ⟨queues.onM.enter off.1, queues.onC.enter off.2, queues.served, queues.order, queues.stamps⟩

/-- A property of a list that holds of its queue and of a new list there. -/
theorem forall_update {Q : Type} [DecidableEq Q] {P : Q → List T → Prop} {queue : Q → List T}
    {q₀ : Q} {l : List T} (others : ∀ q, P q (queue q)) (here : P q₀ l) (q : Q) :
    P q (Function.update queue q₀ l q) := by
  by_cases same : q = q₀
  · subst same
    rw [Function.update_self]
    exact here
  · rw [Function.update_of_ne same]
    exact others q

variable [DecidableEq T]

theorem Queues.dequeueM [DecidableEq M] (queues : Queues none waiting prio stamp clock mq cq)
    (waits : waiting tp = some (.WTMTX mp)) :
    Queues (some tp) waiting prio stamp clock (Function.update mq mp ((mq mp).erase tp)) cq := by
  constructor
  · exact queues.onM.remove (mtxOf_eq_some.mpr waits)
  · exact queues.onC.leave (by simp [waits, condOf])
  · exact forall_update queues.served ((queues.served mp).sublist List.erase_sublist)
  · exact queues.order
  · apply forall_update (P := fun _ l => ∀ t ∈ l, stamp t < clock) queues.stamps
    intro t ht
    exact queues.stamps mp t (List.mem_of_mem_erase ht)

theorem Queues.dequeueC [DecidableEq C] (queues : Queues none waiting prio stamp clock mq cq)
    (waits : waiting tp = some (.WTCOND cp)) :
    Queues (some tp) waiting prio stamp clock mq (Function.update cq cp ((cq cp).erase tp)) := by
  constructor
  · exact queues.onM.leave (by simp [waits, mtxOf])
  · exact queues.onC.remove (condOf_eq_some.mpr waits)
  · exact queues.served
  · exact forall_update queues.order ((queues.order cp).sublist List.erase_sublist)
  · exact queues.stamps

/-- The thread outside goes on the queue of a mutex. -/
theorem Queues.queueM [DecidableEq M] (queues : Queues (some tp) waiting prio stamp clock mq cq)
    (waits : waiting tp = some (.WTMTX mp)) :
    Queues none waiting prio (Function.update stamp tp clock) (clock + 1)
      (Function.update mq mp (insertBehind prio tp (mq mp))) cq := by
  have stamp_eq : ∀ m, ∀ t ∈ mq m, Function.update stamp tp clock t = stamp t := by
    intro m t ht
    apply Function.update_of_ne
    rintro rfl
    exact queues.onM.absent m ht
  have served : ∀ m, Served prio (Function.update stamp tp clock) (mq m) :=
    fun m => (queues.served m).congr fun t ht => ⟨rfl, stamp_eq m t ht⟩
  have stamps : ∀ m, ∀ t ∈ mq m, Function.update stamp tp clock t < clock := by
    intro m t ht
    rw [stamp_eq m t ht]
    exact queues.stamps m t ht
  constructor
  · apply queues.onM.insert (mtxOf_eq_some.mpr waits)
    · intro t
      exact mem_insertBehind
    · exact nodup_insertBehind (queues.onM.nodup mp) (queues.onM.absent mp)
  · exact queues.onC.enter (by simp [waits, condOf])
  · apply forall_update served
    apply (served mp).insertBehind
    intro t ht
    rw [Function.update_self]
    exact stamps mp t ht
  · exact queues.order
  · apply forall_update (P := fun _ l => ∀ t ∈ l, Function.update stamp tp clock t < clock + 1)
    · intro m t ht
      exact Nat.lt_succ_of_lt (stamps m t ht)
    · intro t ht
      rcases mem_insertBehind.mp ht with rfl | ht
      · rw [Function.update_self]
        exact Nat.lt_succ_self _
      · exact Nat.lt_succ_of_lt (stamps mp t ht)

omit [DecidableEq T] in
/-- The thread outside goes on the queue of a condition variable. -/
theorem Queues.queueC [DecidableEq C] (queues : Queues (some tp) waiting prio stamp clock mq cq)
    (waits : waiting tp = some (.WTCOND cp)) :
    Queues none waiting prio stamp clock mq
      (Function.update cq cp (insertBehind prio tp (cq cp))) := by
  constructor
  · exact queues.onM.enter (by simp [waits, mtxOf])
  · apply queues.onC.insert (condOf_eq_some.mpr waits)
    · intro t
      exact mem_insertBehind
    · exact nodup_insertBehind (queues.onC.nodup cp) (queues.onC.absent cp)
  · exact queues.served
  · exact forall_update queues.order ((queues.order cp).insertBehind tp)
  · exact queues.stamps

end Queues

/-! ### Owners and priorities -/

/-- A mutex is on the list of its owner, once. A thread waits for a mutex only if it
has an owner, and leaves `chMtxLockS` only as the owner. -/
structure Owners (idle : T) (waiting : T → Option (Wait M C)) (owner : M → Option T)
    (held : T → List M) (pc : T → Pc M) : Prop where
  own : ∀ m t, m ∈ held t ↔ owner m = some t
  nodup : ∀ t, (held t).Nodup
  owned : ∀ m t, waiting t = some (.WTMTX m) → owner m ≠ none
  pc_idle : pc idle = .user
  pc_mtx : ∀ t m, waiting t = some (.WTMTX m) → pc t = .locking m
  pc_lock : ∀ t m, pc t = .locking m →
      waiting t = some (.WTMTX m) ∨ waiting t = none ∧ owner m = some t

section Owners

variable {idle ctp : T} {waiting waiting' : T → Option (Wait M C)} {owner : M → Option T}
  {held : T → List M} {pc : T → Pc M} {mp : M}

/-- A thread in no call may wait for other things than a mutex, or stop to do so. -/
theorem Owners.congr (owners : Owners idle waiting owner held pc)
    (mtx : ∀ t m, waiting' t = some (.WTMTX m) ↔ waiting t = some (.WTMTX m))
    (inside : ∀ t m, pc t = .locking m → waiting' t = waiting t) :
    Owners idle waiting' owner held pc := by
  refine ⟨owners.own, owners.nodup, ?_, owners.pc_idle, ?_, ?_⟩
  · intro m t waits
    exact owners.owned m t ((mtx t m).mp waits)
  · intro t m waits
    exact owners.pc_mtx t m ((mtx t m).mp waits)
  · intro t m h
    rw [inside t m h]
    exact owners.pc_lock t m h

variable [DecidableEq T]

/-- A thread goes on in a call, or leaves it, where it does not wait for a mutex. -/
theorem Owners.setPc (owners : Owners idle waiting owner held pc) {p : Pc M}
    (awake : ∀ m, waiting ctp ≠ some (.WTMTX m)) (outside : ∀ m, p ≠ .locking m)
    (other : ctp = idle → p = .user) :
    Owners idle waiting owner held (Function.update pc ctp p) := by
  refine ⟨owners.own, owners.nodup, owners.owned, ?_, ?_, ?_⟩
  · rw [Function.update_apply]
    split_ifs with eq
    · exact other eq.symm
    · exact owners.pc_idle
  · intro t m waits
    rw [Function.update_of_ne, owners.pc_mtx t m waits]
    rintro rfl
    exact awake m waits
  · intro t m inside
    rw [Function.update_apply] at inside
    split_ifs at inside with eq
    · exact absurd inside (outside m)
    · exact owners.pc_lock t m inside

omit [DecidableEq T] in
/-- The owner of a mutex changes, and the thread it was handed to keeps it. -/
theorem Owners.pc_lock_update [DecidableEq M] (owners : Owners idle waiting owner held pc)
    (safe : ∀ t, pc t = .locking mp → owner mp ≠ some t) (w : Option T) {t : T} {m : M}
    (inside : pc t = .locking m) :
    waiting t = some (.WTMTX m) ∨ waiting t = none ∧ Function.update owner mp w m = some t := by
  rcases owners.pc_lock t m inside with h | ⟨h, eq⟩
  · exact .inl h
  · refine .inr ⟨h, ?_⟩
    rw [Function.update_of_ne, eq]
    rintro rfl
    exact safe t inside eq

omit [DecidableEq T] in
/-- A thread outside a call is not the one a mutex is handed to. -/
theorem not_handed {t : T} (here : owner mp = some ctp) (user : pc ctp = .user)
    (inside : pc t = .locking mp) : owner mp ≠ some t := by
  intro eq
  obtain rfl : ctp = t := Option.some.inj (here.symm.trans eq)
  rw [user] at inside
  cases inside

/-- A thread takes a free mutex. -/
theorem Owners.take [DecidableEq M] (owners : Owners idle waiting owner held pc)
    (free : owner mp = none) :
    Owners idle waiting (Function.update owner mp (some ctp))
      (Function.update held ctp (mp :: held ctp)) pc := by
  have fresh : ∀ t, mp ∉ held t := by
    intro t
    rw [owners.own, free]
    simp
  refine ⟨?_, ?_, ?_, owners.pc_idle, owners.pc_mtx, ?_⟩
  · intro m t
    by_cases same : t = ctp
    · subst same
      rw [Function.update_self, List.mem_cons, owners.own, Function.update_apply]
      split_ifs with eq
      · simp [eq]
      · simp [eq]
    · rw [Function.update_of_ne same, owners.own, Function.update_apply]
      split_ifs with eq
      · simp [eq, free, Ne.symm same]
      · rfl
  · intro t
    rw [Function.update_apply]
    split_ifs
    · exact List.nodup_cons.mpr ⟨fresh _, owners.nodup _⟩
    · exact owners.nodup t
  · intro m t waits
    rw [Function.update_apply]
    split_ifs
    · simp
    · exact owners.owned m t waits
  · intro t m inside
    exact owners.pc_lock_update (fun _ _ => by simp [free]) _ inside

/-- A thread starts to wait for a mutex. -/
theorem Owners.sleep (owners : Owners idle waiting owner held pc) (owned : owner mp ≠ none)
    (other : ctp ≠ idle) :
    Owners idle (Function.update waiting ctp (some (.WTMTX mp))) owner held
      (Function.update pc ctp (.locking mp)) := by
  refine ⟨owners.own, owners.nodup, ?_, ?_, ?_, ?_⟩
  · intro m t waits
    by_cases same : t = ctp
    · subst same
      rw [Function.update_self, Option.some.injEq, Wait.WTMTX.injEq] at waits
      rw [← waits]
      exact owned
    · rw [Function.update_of_ne same] at waits
      exact owners.owned m t waits
  · rw [Function.update_of_ne other.symm, owners.pc_idle]
  · intro t m waits
    by_cases same : t = ctp
    · subst same
      rw [Function.update_self, Option.some.injEq, Wait.WTMTX.injEq] at waits
      rw [Function.update_self, waits]
    · rw [Function.update_of_ne same] at waits ⊢
      exact owners.pc_mtx t m waits
  · intro t m inside
    by_cases same : t = ctp
    · subst same
      rw [Function.update_self, Pc.locking.injEq] at inside
      rw [Function.update_self, inside]
      exact .inl rfl
    · rw [Function.update_of_ne same] at inside ⊢
      exact owners.pc_lock t m inside

/-- A thread that is in no call gives up a mutex nobody waits for. -/
theorem Owners.drop [DecidableEq M] (owners : Owners idle waiting owner held pc) {rest : List M}
    (top : held ctp = mp :: rest) (user : pc ctp = .user)
    (unwanted : ∀ t, waiting t ≠ some (.WTMTX mp)) :
    Owners idle waiting (Function.update owner mp none) (Function.update held ctp rest) pc := by
  have here : owner mp = some ctp := (owners.own mp ctp).mp (by simp [top])
  obtain ⟨fresh, nodup⟩ := List.nodup_cons.mp (top ▸ owners.nodup ctp)
  refine ⟨?_, ?_, ?_, owners.pc_idle, owners.pc_mtx, ?_⟩
  · intro m t
    by_cases same : t = ctp
    · subst same
      have old := owners.own m t
      rw [top, List.mem_cons] at old
      rw [Function.update_self, Function.update_apply]
      split_ifs with eq
      · simp [eq, fresh]
      · rw [← old]
        simp [eq]
    · rw [Function.update_of_ne same, owners.own, Function.update_apply]
      split_ifs with eq
      · simp [eq, here, Ne.symm same]
      · rfl
  · intro t
    rw [Function.update_apply]
    split_ifs
    · exact nodup
    · exact owners.nodup t
  · intro m t waits
    rw [Function.update_of_ne]
    · exact owners.owned m t waits
    · rintro rfl
      exact unwanted t waits
  · intro t m inside
    exact owners.pc_lock_update (fun _ => not_handed here user) _ inside

/-- A thread that is in no call gives a mutex to one that waits for it. -/
theorem Owners.hand [DecidableEq M] (owners : Owners idle waiting owner held pc) {rest : List M}
    {tp : T} (top : held ctp = mp :: rest) (user : pc ctp = .user)
    (waits : waiting tp = some (.WTMTX mp)) (other : tp ≠ ctp) :
    Owners idle (Function.update waiting tp none) (Function.update owner mp (some tp))
      (Function.update (Function.update held ctp rest) tp (mp :: held tp)) pc := by
  have here : owner mp = some ctp := (owners.own mp ctp).mp (by simp [top])
  obtain ⟨fresh, nodup⟩ := List.nodup_cons.mp (top ▸ owners.nodup ctp)
  have absent : ∀ t, t ≠ ctp → mp ∉ held t := by
    intro t ht mem
    rw [owners.own, here, Option.some.injEq] at mem
    exact ht mem.symm
  refine ⟨?_, ?_, ?_, owners.pc_idle, ?_, ?_⟩
  · intro m t
    by_cases new : t = tp
    · subst new
      rw [Function.update_self, List.mem_cons, owners.own, Function.update_apply]
      split_ifs with eq
      · simp [eq]
      · simp [eq]
    · rw [Function.update_of_ne new]
      by_cases same : t = ctp
      · subst same
        have old := owners.own m t
        rw [top, List.mem_cons] at old
        rw [Function.update_self, Function.update_apply]
        split_ifs with eq
        · simp [eq, fresh, other]
        · rw [← old]
          simp [eq]
      · rw [Function.update_of_ne same, owners.own, Function.update_apply]
        split_ifs with eq
        · simp [eq, here, Ne.symm same, Ne.symm new]
        · rfl
  · intro t
    rw [Function.update_apply]
    split_ifs
    · exact List.nodup_cons.mpr ⟨absent tp other, owners.nodup tp⟩
    · rw [Function.update_apply]
      split_ifs
      · exact nodup
      · exact owners.nodup t
  · intro m t h
    rw [Function.update_apply] at h ⊢
    split_ifs at h ⊢ with new eq
    · simp
    · exact owners.owned m t h
  · intro t m h
    rw [Function.update_apply] at h
    split_ifs at h
    exact owners.pc_mtx t m h
  · intro t m inside
    by_cases new : t = tp
    · subst new
      rw [owners.pc_mtx t mp waits, Pc.locking.injEq] at inside
      subst inside
      exact .inr ⟨Function.update_self _ _ _, Function.update_self _ _ _⟩
    · rw [Function.update_of_ne new]
      exact owners.pc_lock_update (fun _ => not_handed here user) _ inside

end Owners

/-- Everything but the inheritance of priorities. -/
structure Wf [DecidableEq T] (idle : T) (s : Mtx T M C) : Prop where
  core : s.core.Inv idle
  queues : Queues none s.core.waiting s.prio s.stamp s.clock s.m_queue s.c_queue
  owners : Owners idle s.core.waiting s.m_owner s.p_mtxlist s.pc
  real : ∀ t, s.realprio t ≤ s.prio t
  pos : ∀ t, NOPRIO < s.realprio t

/-- The thread `u` waits for a mutex of `t`. -/
def Lends (s : Mtx T M C) (u t : T) : Prop :=
  ∃ m, s.m_owner m = some t ∧ s.core.waiting u = some (.WTMTX m)

/-- The priority of `t` is the highest of its own and those of the threads that wait for
it. -/
structure Inherits (s : Mtx T M C) (t : T) : Prop where
  bound : ∀ u, s.Lends u t → s.prio u ≤ s.prio t
  tight : s.prio t = s.realprio t ∨ ∃ u, s.Lends u t ∧ s.prio u = s.prio t

/-- What a change of priorities leaves as it is. -/
structure Same (s s' : Mtx T M C) : Prop where
  waiting : s'.core.waiting = s.core.waiting
  owner : s'.m_owner = s.m_owner
  held : s'.p_mtxlist = s.p_mtxlist
  pc : s'.pc = s.pc
  real : s'.realprio = s.realprio
  currp : s'.core.currp = s.core.currp

theorem Same.trans {s s' s'' : Mtx T M C} (h : Same s s') (h' : Same s' s'') : Same s s'' :=
  ⟨h'.waiting.trans h.waiting, h'.owner.trans h.owner, h'.held.trans h.held, h'.pc.trans h.pc,
    h'.real.trans h.real,
    h'.currp.trans h.currp⟩

theorem Same.lends {s s' : Mtx T M C} (same : Same s s') {u t : T} :
    s'.Lends u t ↔ s.Lends u t := by
  unfold Lends
  rw [same.owner, same.waiting]

section Raise

variable [DecidableEq T] [DecidableEq M] [DecidableEq C] {idle ctp tp : T} {s : Mtx T M C}

theorem same_requeue (s : Mtx T M C) (tp : T) : Same s (s.requeue tp) := by
  unfold requeue
  split
  · exact ⟨rfl, rfl, rfl, rfl, rfl, rfl⟩
  · exact ⟨rfl, rfl, rfl, rfl, rfl, rfl⟩
  · next ready =>
      refine ⟨?_, rfl, rfl, rfl, rfl, rfl⟩
      rw [Core.waiting_chSchReadyI]
      exact Function.update_eq_self_iff.mpr (Core.waiting_eq_none.mpr (.inl ready)).symm
  · exact ⟨rfl, rfl, rfl, rfl, rfl, rfl⟩

theorem same_raise (s : Mtx T M C) (ctp tp : T) : Same s (s.raise ctp tp) :=
  (Same.mk rfl rfl rfl rfl rfl rfl : Same s (s.setPrio tp (s.prio ctp))).trans (same_requeue _ _)

omit [DecidableEq M] [DecidableEq C] in
/-- A thread outside all queues may have any priority. -/
theorem Queues.setPrio {waiting : T → Option (Wait M C)} {prio stamp : T → Nat} {clock : Nat}
    {mq : M → List T} {cq : C → List T} (queues : Queues (some tp) waiting prio stamp clock mq cq)
    (p : Nat) :
    Queues (some tp) waiting (Function.update prio tp p) stamp clock mq cq := by
  apply queues.congr _ le_rfl
  intro t other
  exact ⟨rfl, Function.update_of_ne (by simpa using other) _ _, rfl⟩

/-- The queues and the ready list after a raise. -/
theorem Wf.queues_raise (wf : Wf idle s) (ctp tp : T) :
    (s.raise ctp tp).core.Inv idle ∧
      Queues none s.core.waiting (Function.update s.prio tp (s.prio ctp)) (s.raise ctp tp).stamp
        (s.raise ctp tp).clock (s.raise ctp tp).m_queue (s.raise ctp tp).c_queue := by
  have queues := wf.queues
  have core := wf.core
  have awake : ∀ w, s.core.p_state tp = .WAIT w → tp ∉ s.core.ready := by
    intro w waits mem
    rw [(core.mem_ready tp).mp mem] at waits
    cases waits
  unfold raise requeue
  split
  · next mp state =>
      constructor
      · exact core.setPrio (awake _ state) _
      · have waits : s.core.waiting tp = some (.WTMTX mp) := Core.waiting_eq_some.mpr state
        exact ((queues.dequeueM waits).setPrio (s.prio ctp)).queueM waits
  · next cp state =>
      constructor
      · exact core.setPrio (awake _ state) _
      · have waits : s.core.waiting tp = some (.WTCOND cp) := Core.waiting_eq_some.mpr state
        exact ((queues.dequeueC waits).setPrio (s.prio ctp)).queueC waits
  · next state =>
      constructor
      · exact core.requeue state _
      · have none : s.core.waiting tp = none := Core.waiting_eq_none.mpr (.inl state)
        have off : Off (s.core.waiting tp) := by
          rw [none]
          exact off_none
        exact ((queues.leave off).setPrio (s.prio ctp)).enter off
  · next not_mtx not_cond not_ready =>
      constructor
      · apply core.setPrio
        intro mem
        exact not_ready ((core.mem_ready tp).mp mem)
      · have off : Off (s.core.waiting tp) := by
          constructor
          · cases h : s.core.waiting tp with
            | none => rfl
            | some w =>
                cases w with
                | WTMTX mp => exact absurd (Core.waiting_eq_some.mp h) (not_mtx mp)
                | WTCOND cp => rfl
                | OTHER => rfl
          · cases h : s.core.waiting tp with
            | none => rfl
            | some w =>
                cases w with
                | WTMTX mp => rfl
                | WTCOND cp => exact absurd (Core.waiting_eq_some.mp h) (not_cond cp)
                | OTHER => rfl
        exact ((queues.leave off).setPrio (s.prio ctp)).enter off

theorem Wf.raise (wf : Wf idle s) (less : s.prio tp < s.prio ctp) : Wf idle (s.raise ctp tp) := by
  obtain ⟨core, queues⟩ := wf.queues_raise ctp tp
  have same := same_raise s ctp tp
  constructor
  · exact core
  · rw [same.waiting, raise_prio]
    exact queues
  · rw [same.waiting, same.owner, same.held, same.pc]
    exact wf.owners
  · intro t
    rw [same.real, raise_prio, Function.update_apply]
    split_ifs with eq
    · subst eq
      exact (wf.real t).trans less.le
    · exact wf.real t
  · rw [same.real]
    exact wf.pos

end Raise

/-! ### The loop along the owners -/

section Boost

variable [DecidableEq T] [DecidableEq M] [DecidableEq C] {idle ctp o tp : T} {s : Mtx T M C}

/-- The loop stands at `tp`, having started at the owner `o`: only `tp` may be below a
thread that waits for it, and only by the priority of the running thread. -/
structure Boosting (idle ctp o tp : T) (s : Mtx T M C) : Prop where
  wf : Wf idle s
  bound : ∀ u t, s.Lends u t → s.prio u ≤ s.prio t ∨ t = tp ∧ s.prio u ≤ s.prio ctp
  tight : ∀ t, (s.prio t = s.realprio t ∨ ∃ u, s.Lends u t ∧ s.prio u = s.prio t) ∨
    (t = o ∧ s.prio t = s.prio ctp) ∨ t = tp ∧ s.prio t < s.prio ctp
  reason : tp = o ∨ ∃ u, s.Lends u tp ∧ s.prio u = s.prio ctp
  first : tp = o ∨ s.prio ctp ≤ s.prio o

/-- After the loop the first owner still lacks the thread it got its priority for. -/
structure Boosted (idle ctp o : T) (s : Mtx T M C) : Prop where
  wf : Wf idle s
  bound : ∀ u t, s.Lends u t → s.prio u ≤ s.prio t
  tight : ∀ t, (s.prio t = s.realprio t ∨ ∃ u, s.Lends u t ∧ s.prio u = s.prio t) ∨
    t = o ∧ s.prio t = s.prio ctp
  first : s.prio ctp ≤ s.prio o

omit [DecidableEq M] [DecidableEq C] in
theorem Boosting.done (boosting : Boosting idle ctp o tp s) (reached : s.prio ctp ≤ s.prio tp) :
    Boosted idle ctp o s := by
  constructor
  · exact boosting.wf
  · intro u t lends
    rcases boosting.bound u t lends with h | ⟨rfl, h⟩
    · exact h
    · exact h.trans reached
  · intro t
    rcases boosting.tight t with h | h | ⟨rfl, h⟩
    · exact .inl h
    · exact .inr h
    · exact absurd reached (not_le.mpr h)
  · rcases boosting.first with rfl | h
    · exact reached
    · exact h

/-- A raise is of a thread below the current one, which keeps its priority. -/
theorem raise_prio_current (less : s.prio tp < s.prio ctp) :
    (s.raise ctp tp).prio ctp = s.prio ctp := by
  rw [raise_prio, Function.update_of_ne]
  rintro rfl
  exact absurd less (lt_irrefl _)

/-- A raise leaves at most the owner of what `tp` waits for. -/
theorem Boosting.raise (boosting : Boosting idle ctp o tp s) (less : s.prio tp < s.prio ctp)
    (next : T) (lends : ∀ t, s.Lends tp t → t = next) (reason : s.Lends tp next ∨ next = tp) :
    Boosting idle ctp o next (s.raise ctp tp) := by
  have same := same_raise s ctp tp
  have current := raise_prio_current less
  have raised : (s.raise ctp tp).prio tp = s.prio ctp := by
    rw [raise_prio, Function.update_self]
  have others : ∀ t, t ≠ tp → (s.raise ctp tp).prio t = s.prio t := by
    intro t other
    rw [raise_prio, Function.update_of_ne other]
  have upper : ∀ u, s.prio u ≤ s.prio ctp → (s.raise ctp tp).prio u ≤ s.prio ctp := by
    intro u le
    by_cases eq : u = tp
    · rw [eq, raised]
    · rw [others u eq]
      exact le
  refine ⟨boosting.wf.raise less, ?_, ?_, ?_, ?_⟩
  · intro u t h
    rw [same.lends] at h
    rw [current]
    by_cases u_eq : u = tp
    · right
      subst u_eq
      exact ⟨lends t h, raised.le⟩
    · rw [others u u_eq]
      by_cases t_eq : t = tp
      · left
        subst t_eq
        rw [raised]
        rcases boosting.bound u t h with h | ⟨-, h⟩
        · exact h.trans less.le
        · exact h
      · left
        rw [others t t_eq]
        rcases boosting.bound u t h with h | ⟨eq, -⟩
        · exact h
        · exact absurd eq t_eq
  · intro t
    rw [current, same.real]
    by_cases t_eq : t = tp
    · subst t_eq
      rw [raised]
      rcases boosting.reason with rfl | ⟨u, h, eq⟩
      · exact .inr (.inl ⟨rfl, rfl⟩)
      · refine .inl (.inr ⟨u, same.lends.mpr h, ?_⟩)
        by_cases u_eq : u = t
        · rw [u_eq, raised]
        · rw [others u u_eq, eq]
    · rw [others t t_eq]
      rcases boosting.tight t with (h | ⟨u, h, eq⟩) | h | ⟨eq, -⟩
      · exact .inl (.inl h)
      · by_cases u_eq : u = tp
        · subst u_eq
          exact .inr (.inr ⟨lends t h, eq ▸ less⟩)
        · exact .inl (.inr ⟨u, same.lends.mpr h, (others u u_eq).trans eq⟩)
      · exact .inr (.inl h)
      · exact absurd eq t_eq
  · rw [current]
    rcases reason with h | rfl
    · exact .inr ⟨tp, same.lends.mpr h, raised⟩
    · rcases boosting.reason with h | ⟨u, h, eq⟩
      · exact .inl h
      · refine .inr ⟨u, same.lends.mpr h, ?_⟩
        by_cases u_eq : u = next
        · rw [u_eq, raised]
        · rw [others u u_eq, eq]
  · right
    rw [current]
    by_cases o_eq : o = tp
    · rw [o_eq, raised]
    · rw [others o o_eq]
      exact boosting.first.resolve_left (Ne.symm o_eq)

omit [DecidableEq T] [DecidableEq M] [DecidableEq C] in
theorem lends_iff {t u : T} {m : M} (waits : s.core.waiting u = some (.WTMTX m)) :
    s.Lends u t ↔ s.m_owner m = some t := by
  constructor
  · rintro ⟨m', owner, waits'⟩
    rw [waits, Option.some.injEq, Wait.WTMTX.injEq] at waits'
    rw [waits', owner]
  · intro owner
    exact ⟨m, owner, waits⟩

/-- The loop ends, and what it leaves. -/
theorem Boosting.boost [Fintype T] (boosting : Boosting idle ctp o tp s) :
    Boosted idle ctp o (s.boost ctp tp) ∧ Same s (s.boost ctp tp) ∧
      (s.boost ctp tp).prio ctp = s.prio ctp := by
  induction hn : (s.below ctp).card using Nat.strong_induction_on generalizing s tp with
  | _ n ih =>
      subst hn
      rw [Mtx.boost]
      split
      · next less =>
          have same := same_raise s ctp tp
          have current := raise_prio_current less
          have raised : (s.raise ctp tp).prio ctp ≤ (s.raise ctp tp).prio tp := by
            rw [current, raise_prio, Function.update_self]
          have stop : (∀ t, ¬ s.Lends tp t) →
              Boosted idle ctp o (s.raise ctp tp) := by
            intro none
            exact (boosting.raise less tp (fun t h => absurd h (none t)) (.inr rfl)).done raised
          split
          · next mp waits =>
              rw [same.waiting] at waits
              split
              · next owner eq =>
                  rw [same.owner] at eq
                  have boosting' := boosting.raise less owner
                    (fun t h => Option.some.inj (((lends_iff waits).mp h).symm.trans eq))
                    (.inl ((lends_iff waits).mpr eq))
                  obtain ⟨boosted, same', current'⟩ :=
                    ih _ (Finset.card_lt_card (below_raise less)) boosting' rfl
                  exact ⟨boosted, same.trans same', current'.trans current⟩
              · next eq =>
                  rw [same.owner] at eq
                  exact absurd eq (boosting.wf.owners.owned mp tp waits)
          · next off =>
              refine ⟨stop ?_, same, current⟩
              rintro t ⟨m, -, waits⟩
              exact off m (by rw [same.waiting, waits])
      · next reached =>
          exact ⟨boosting.done (not_lt.mp reached), ⟨rfl, rfl, rfl, rfl, rfl, rfl⟩, rfl⟩

end Boost

/-! ### Locking -/

/-- All invariants. -/
structure Inv [DecidableEq T] (idle : T) (s : Mtx T M C) : Prop extends Wf idle s where
  inherits : ∀ t, s.Inherits t

section Lock

variable [DecidableEq T] [DecidableEq M] [DecidableEq C] {idle : T} {s : Mtx T M C} {mp : M}

omit [DecidableEq M] [DecidableEq C] in
theorem Inv.waiting_currp (inv : Inv idle s) : s.core.waiting s.core.currp = none :=
  inv.core.waiting_currp

omit [DecidableEq C] in
/-- A free mutex is taken by the current thread. -/
theorem inv_take (inv : Inv idle s) (free : s.m_owner mp = none) :
    Inv idle { s with
      m_owner := Function.update s.m_owner mp (some s.core.currp)
      p_mtxlist := Function.update s.p_mtxlist s.core.currp (mp :: s.p_mtxlist s.core.currp)
      pc := Function.update s.pc s.core.currp .user } := by
  have owners := inv.owners
  -- nobody waits for a free mutex, so nobody lends for it
  have lends : ∀ u t, (∃ m, Function.update s.m_owner mp (some s.core.currp) m = some t ∧
      s.core.waiting u = some (.WTMTX m)) ↔ s.Lends u t := by
    intro u t
    constructor
    · rintro ⟨m, owner, waits⟩
      have other : m ≠ mp := by
        rintro rfl
        exact owners.owned m u waits free
      rw [Function.update_of_ne other] at owner
      exact ⟨m, owner, waits⟩
    · rintro ⟨m, owner, waits⟩
      have other : m ≠ mp := by
        rintro rfl
        exact owners.owned m u waits free
      exact ⟨m, (Function.update_of_ne other _ _).trans owner, waits⟩
  constructor
  · refine ⟨inv.core, inv.queues, ?_, inv.real, inv.pos⟩
    apply (owners.take free).setPc
    · intro m waits
      exact absurd (inv.waiting_currp.symm.trans waits) (by simp)
    · simp
    · intro _
      rfl
  · intro t
    constructor
    · intro u h
      exact (inv.inherits t).bound u ((lends u t).mp h)
    · rcases (inv.inherits t).tight with h | ⟨u, h, eq⟩
      · exact .inl h
      · exact .inr ⟨u, (lends u t).mpr h, eq⟩

omit [DecidableEq C] in
/-- The current thread waits for a mutex whose owner has its priority. -/
theorem Boosted.sleep {o : T} (boosted : Boosted idle s.core.currp o s)
    (owner : s.m_owner mp = some o) (other : s.core.currp ≠ idle) :
    Inv idle { s.queueM s.core.currp mp with
      core := s.core.chSchGoSleepS (.WTMTX mp)
      pc := Function.update s.pc s.core.currp (.locking mp) } := by
  have wf := boosted.wf
  have owners := wf.owners
  have awake := wf.core.waiting_currp
  have waiting := wf.core.waiting_chSchGoSleepS (.WTMTX mp)
  have here : (s.core.chSchGoSleepS (.WTMTX mp)).waiting s.core.currp = some (.WTMTX mp) := by
    rw [waiting, Function.update_self]
  have there : ∀ t, t ≠ s.core.currp →
      (s.core.chSchGoSleepS (.WTMTX mp)).waiting t = s.core.waiting t := by
    intro t ht
    rw [waiting, Function.update_of_ne ht]
  have lends : ∀ u t, (∃ m, s.m_owner m = some t ∧
      (s.core.chSchGoSleepS (.WTMTX mp)).waiting u = some (.WTMTX m)) ↔
        s.Lends u t ∨ u = s.core.currp ∧ t = o := by
    intro u t
    by_cases same : u = s.core.currp
    · subst same
      constructor
      · rintro ⟨m, eq, waits⟩
        rw [here, Option.some.injEq, Wait.WTMTX.injEq] at waits
        rw [← waits, owner, Option.some.injEq] at eq
        exact .inr ⟨rfl, eq.symm⟩
      · rintro (⟨m, -, waits⟩ | ⟨-, rfl⟩)
        · exact absurd (awake.symm.trans waits) (by simp)
        · exact ⟨mp, owner, here⟩
    · rw [there u same]
      constructor
      · exact .inl
      · rintro (h | ⟨eq, -⟩)
        · exact h
        · exact absurd eq same
  constructor
  · refine ⟨wf.core.chSchGoSleepS other _, ?_, ?_, ?_, wf.pos⟩
    · change Queues none (s.core.chSchGoSleepS (.WTMTX mp)).waiting
        (s.core.chSchGoSleepS (.WTMTX mp)).p_prio
        (Function.update s.stamp s.core.currp s.clock) (s.clock + 1)
        (Function.update s.m_queue mp (insertBehind s.prio s.core.currp (s.m_queue mp))) s.c_queue
      rw [Core.chSchGoSleepS_p_prio]
      have off : Off (s.core.waiting s.core.currp) := by
        rw [awake]
        exact off_none
      apply Queues.queueM _ here
      apply (wf.queues.leave off).congr _ le_rfl
      intro t ht
      exact ⟨there t (by simpa using ht), rfl, rfl⟩
    · change Owners idle (s.core.chSchGoSleepS (.WTMTX mp)).waiting s.m_owner s.p_mtxlist _
      rw [waiting]
      exact owners.sleep (by simp [owner]) other
    · intro t
      change s.realprio t ≤ (s.core.chSchGoSleepS (.WTMTX mp)).p_prio t
      rw [Core.chSchGoSleepS_p_prio]
      exact wf.real t
  · intro t
    constructor
    · intro u h
      change (s.core.chSchGoSleepS (.WTMTX mp)).p_prio u ≤
        (s.core.chSchGoSleepS (.WTMTX mp)).p_prio t
      rw [Core.chSchGoSleepS_p_prio]
      rcases (lends u t).mp h with h | ⟨rfl, rfl⟩
      · exact boosted.bound u t h
      · exact boosted.first
    · change (s.core.chSchGoSleepS (.WTMTX mp)).p_prio t = s.realprio t ∨ ∃ u, _ ∧
        (s.core.chSchGoSleepS (.WTMTX mp)).p_prio u = (s.core.chSchGoSleepS (.WTMTX mp)).p_prio t
      rw [Core.chSchGoSleepS_p_prio]
      rcases boosted.tight t with (h | ⟨u, h, eq⟩) | ⟨rfl, eq⟩
      · exact .inl h
      · exact .inr ⟨u, (lends u t).mpr (.inl h), eq⟩
      · exact .inr ⟨s.core.currp, (lends _ _).mpr (.inr ⟨rfl, rfl⟩), eq.symm⟩

omit [DecidableEq M] [DecidableEq C] in
/-- Before the loop no thread is below one that waits for it. -/
theorem Inv.boosting (inv : Inv idle s) (ctp o : T) : Boosting idle ctp o o s :=
  ⟨inv.toWf, fun u t h => .inl ((inv.inherits t).bound u h), fun t => .inl (inv.inherits t).tight,
    .inl rfl, .inl rfl⟩

theorem inv_chMtxLockS [Fintype T] (inv : Inv idle s) (other : s.core.currp ≠ idle) (mp : M) :
    Inv idle (s.chMtxLockS mp) := by
  unfold chMtxLockS
  dsimp only
  split
  · next o owner =>
      obtain ⟨boosted, same, -⟩ := (inv.boosting s.core.currp o).boost
      generalize s.boost s.core.currp o = b at boosted same ⊢
      rw [← same.currp] at boosted other ⊢
      rw [← same.owner] at owner
      exact boosted.sleep owner other
  · next free => exact inv_take inv free

theorem rdymsg_raise (s : Mtx T M C) (ctp tp : T) :
    (s.raise ctp tp).core.rdymsg = s.core.rdymsg := by
  unfold raise requeue
  split <;> rfl

theorem rdymsg_boost [Fintype T] (s : Mtx T M C) (ctp tp : T) :
    (s.boost ctp tp).core.rdymsg = s.core.rdymsg := by
  fun_induction boost s ctp tp with
  | case1 s tp less mp waits owner eq ih => exact ih.trans (rdymsg_raise s ctp tp)
  | case2 s tp less mp waits eq => exact rdymsg_raise s ctp tp
  | case3 s tp less off => exact rdymsg_raise s ctp tp
  | case4 s tp reached => rfl

/-- The current thread waits for a mutex that has an owner. -/
theorem chMtxLockS_owned [Fintype T] (inv : Inv idle s) {o : T} (owner : s.m_owner mp = some o) :
    (s.chMtxLockS mp).core.waiting =
        Function.update s.core.waiting s.core.currp (some (.WTMTX mp)) ∧
      (s.chMtxLockS mp).pc = Function.update s.pc s.core.currp (.locking mp) ∧
      (s.chMtxLockS mp).p_mtxlist = s.p_mtxlist ∧
      (s.chMtxLockS mp).core.rdymsg = s.core.rdymsg := by
  obtain ⟨boosted, same, -⟩ := (inv.boosting s.core.currp o).boost
  have waiting := boosted.wf.core.waiting_chSchGoSleepS (.WTMTX mp)
  rw [same.waiting, same.currp] at waiting
  have rdymsg := rdymsg_boost s s.core.currp o
  unfold chMtxLockS
  dsimp only
  rw [owner]
  refine ⟨waiting, ?_, same.held, ?_⟩
  · change Function.update (s.boost s.core.currp o).pc _ _ = _
    rw [same.pc]
  · exact (Core.chSchGoSleepS_rdymsg _ _).trans rdymsg

/-- The current thread takes a mutex that has none. -/
theorem chMtxLockS_free [Fintype T] (free : s.m_owner mp = none) :
    s.chMtxLockS mp = { s with
      m_owner := Function.update s.m_owner mp (some s.core.currp)
      p_mtxlist := Function.update s.p_mtxlist s.core.currp (mp :: s.p_mtxlist s.core.currp)
      pc := Function.update s.pc s.core.currp .user } := by
  unfold chMtxLockS
  dsimp only
  rw [free]

omit [DecidableEq C] in
theorem inv_chMtxTryLockS (inv : Inv idle s) (user : s.pc s.core.currp = .user) (mp : M) :
    Inv idle (s.chMtxTryLockS mp).2 := by
  unfold chMtxTryLockS
  dsimp only
  split
  · exact inv
  · next free =>
      have taken := inv_take inv free
      rwa [show Function.update s.pc s.core.currp .user = s.pc from
        Function.update_eq_self_iff.mpr user.symm] at taken

end Lock

/-! ### Unlocking -/

section Unlock

variable {idle : T} {s s' : Mtx T M C} {mp : M} {rest : List M}

/-- What the release of a mutex does: `tp` is the thread that gets it, if any. -/
structure Released (s : Mtx T M C) (mp : M) (rest : List M) (s' : Mtx T M C) : Prop where
  prio : s'.prio = s.prio
  real : s'.realprio = s.realprio
  pc : s'.pc = s.pc
  currp : s'.core.currp = s.core.currp
  stamp : s'.stamp = s.stamp
  held : s'.p_mtxlist s.core.currp = rest
  owner : ∀ m, m ≠ mp → s'.m_owner m = s.m_owner m
  queue : ∀ m, m ≠ mp → s'.m_queue m = s.m_queue m
  gave : s'.m_owner mp = (s.m_queue mp).head?
  kept : ∀ t, s.core.waiting t ≠ some (.WTMTX mp) → s'.core.waiting t = s.core.waiting t
  handed : ∀ t, s.core.waiting t = some (.WTMTX mp) → s'.core.waiting t = some (.WTMTX mp) ∨
    s'.core.waiting t = none ∧ s'.m_owner mp = some t ∧
      ∀ u ∈ s.m_queue mp, u ≠ t → s.prio u < s.prio t ∨ s.prio u = s.prio t ∧ s.stamp t < s.stamp u
  other : s'.m_owner mp ≠ some s.core.currp
  best : ∀ t, s'.m_owner mp = some t →
      ∀ u, s'.core.waiting u = some (.WTMTX mp) → s.prio u ≤ s.prio t

theorem handOff_nil [DecidableEq T] [DecidableEq M] (eq : s.m_queue mp = []) :
    s.handOff mp = { s with m_owner := Function.update s.m_owner mp none } := by
  unfold handOff
  rw [eq]

theorem handOff_cons [DecidableEq T] [DecidableEq M] {tp : T} {q : List T}
    (eq : s.m_queue mp = tp :: q) :
    s.handOff mp = { s with
      m_queue := Function.update s.m_queue mp q
      m_owner := Function.update s.m_owner mp (some tp)
      p_mtxlist := Function.update s.p_mtxlist tp (mp :: s.p_mtxlist tp)
      core := s.core.chSchReadyI tp } := by
  unfold handOff
  rw [eq]

/-- The threads on the queue of a mutex wait for it. -/
theorem Wf.mem_queue [DecidableEq T] (wf : Wf idle s) {m : M} {u : T} :
    u ∈ s.m_queue m ↔ s.core.waiting u = some (.WTMTX m) := by
  rw [wf.queues.onM.mem_iff, mtxOf_eq_some]

/-- A mutex nobody waits for. -/
theorem Wf.release_nil [DecidableEq T] [DecidableEq M] (wf : Wf idle s)
    (top : s.p_mtxlist s.core.currp = mp :: rest) (user : s.pc s.core.currp = .user)
    (eq : s.m_queue mp = []) :
    Wf idle ((s.pop s.core.currp).handOff mp) ∧
      Released s mp rest ((s.pop s.core.currp).handOff mp) := by
  have tail : (s.p_mtxlist s.core.currp).tail = rest := by rw [top, List.tail_cons]
  have unwanted : ∀ t, s.core.waiting t ≠ some (.WTMTX mp) := by
    intro t waits
    rw [← wf.mem_queue, eq] at waits
    simp at waits
  rw [handOff_nil (by exact eq)]
  constructor
  · refine ⟨wf.core, wf.queues, ?_, wf.real, wf.pos⟩
    have := wf.owners.drop top user unwanted
    rw [← tail] at this
    exact this
  · exact {
      prio := rfl
      real := rfl
      pc := rfl
      currp := rfl
      stamp := rfl
      held := (Function.update_self _ _ _).trans tail
      owner := fun m hm => Function.update_of_ne hm _ _
      queue := fun _ _ => rfl
      gave := by
        rw [eq]
        exact Function.update_self _ _ _
      kept := fun _ _ => rfl
      handed := fun t waits => absurd waits (unwanted t)
      other := by
        change Function.update s.m_owner mp none mp ≠ _
        rw [Function.update_self]
        simp
      best := fun _ _ u waits => absurd waits (unwanted u) }

/-- A mutex with waiting threads goes to the first. -/
theorem Wf.release_cons [DecidableEq T] [DecidableEq M] (wf : Wf idle s)
    (top : s.p_mtxlist s.core.currp = mp :: rest) (user : s.pc s.core.currp = .user) {tp : T}
    {q : List T} (eq : s.m_queue mp = tp :: q) :
    Wf idle ((s.pop s.core.currp).handOff mp) ∧
      Released s mp rest ((s.pop s.core.currp).handOff mp) := by
  have tail : (s.p_mtxlist s.core.currp).tail = rest := by rw [top, List.tail_cons]
  have waits : s.core.waiting tp = some (.WTMTX mp) := wf.mem_queue.mp (by simp [eq])
  have other : tp ≠ s.core.currp := by
    rintro rfl
    exact absurd (wf.core.waiting_currp.symm.trans waits) (by simp)
  have held_tp : (s.pop s.core.currp).p_mtxlist tp = s.p_mtxlist tp :=
    Function.update_of_ne other _ _
  have waiting : (s.core.chSchReadyI tp).waiting = Function.update s.core.waiting tp none :=
    Core.waiting_chSchReadyI _ _
  have served := wf.queues.served mp
  rw [eq] at served
  have first := (List.pairwise_cons.mp served).1
  rw [handOff_cons (by exact eq)]
  constructor
  · constructor
    · exact wf.core.chSchReadyI (by simp [waits])
    · have moved := wf.queues.dequeueM waits
      rw [eq, List.erase_cons_head] at moved
      have entered : Queues none (Function.update s.core.waiting tp none) s.prio s.stamp s.clock
          (Function.update s.m_queue mp q) s.c_queue := by
        apply Queues.enter _ (by rw [Function.update_self]; exact off_none)
        apply moved.congr _ le_rfl
        intro t ht
        exact ⟨Function.update_of_ne (by simpa using ht) _ _, rfl, rfl⟩
      rw [← waiting] at entered
      exact entered
    · have handed := wf.owners.hand top user waits other
      rw [← waiting, ← tail, ← held_tp] at handed
      exact handed
    · exact wf.real
    · exact wf.pos
  · exact {
      prio := rfl
      real := rfl
      pc := rfl
      currp := rfl
      stamp := rfl
      held := by
        change Function.update (s.pop s.core.currp).p_mtxlist tp _ s.core.currp = rest
        rw [Function.update_of_ne other.symm]
        exact (Function.update_self _ _ _).trans tail
      owner := fun m hm => Function.update_of_ne hm _ _
      queue := fun m hm => Function.update_of_ne hm _ _
      gave := by
        rw [eq]
        exact Function.update_self _ _ _
      kept := by
        intro t ht
        change (s.core.chSchReadyI tp).waiting t = _
        rw [waiting, Function.update_of_ne]
        rintro rfl
        exact ht waits
      handed := by
        intro t ht
        change (s.core.chSchReadyI tp).waiting t = _ ∨ (s.core.chSchReadyI tp).waiting t = _ ∧
          Function.update s.m_owner mp (some tp) mp = some t ∧ _
        rw [waiting, Function.update_self]
        by_cases same : t = tp
        · subst same
          rw [Function.update_self]
          refine .inr ⟨rfl, rfl, ?_⟩
          intro u hu ne
          rw [eq] at hu
          exact first u ((List.mem_cons.mp hu).resolve_left ne)
        · rw [Function.update_of_ne same]
          exact .inl ht
      other := by
        change Function.update s.m_owner mp (some tp) mp ≠ _
        rw [Function.update_self, Ne, Option.some.injEq]
        exact other
      best := by
        intro t owner u hu
        change Function.update s.m_owner mp (some tp) mp = some t at owner
        rw [Function.update_self, Option.some.injEq] at owner
        subst owner
        change (s.core.chSchReadyI tp).waiting u = _ at hu
        rw [waiting, Function.update_apply] at hu
        split_ifs at hu with same
        have mem : u ∈ s.m_queue mp := wf.mem_queue.mpr hu
        rw [eq] at mem
        exact served.descending.first mem }

theorem Wf.release [DecidableEq T] [DecidableEq M] (wf : Wf idle s)
    (top : s.p_mtxlist s.core.currp = mp :: rest) (user : s.pc s.core.currp = .user) :
    Wf idle ((s.pop s.core.currp).handOff mp) ∧
      Released s mp rest ((s.pop s.core.currp).handOff mp) := by
  cases eq : s.m_queue mp with
  | nil => exact wf.release_nil top user eq
  | cons tp q => exact wf.release_cons top user eq

/-- Who waits for another mutex, or still waits. -/
theorem Released.waiting_iff (released : Released s mp rest s') {u : T} {m : M} (other : m ≠ mp) :
    s'.core.waiting u = some (.WTMTX m) ↔ s.core.waiting u = some (.WTMTX m) := by
  by_cases here : s.core.waiting u = some (.WTMTX mp)
  · rw [here, Option.some.injEq, Wait.WTMTX.injEq]
    rcases released.handed u here with h | ⟨h, -⟩
    · rw [h, Option.some.injEq, Wait.WTMTX.injEq]
    · rw [h]
      simp [Ne.symm other]
  · rw [released.kept u here]

theorem Released.inherits (released : Released s mp rest s')
    (here : s.m_owner mp = some s.core.currp) {t : T} (other : t ≠ s.core.currp)
    (inherits : s.Inherits t) : s'.Inherits t := by
  constructor
  · rintro u ⟨m, owner, waits⟩
    rw [released.prio]
    by_cases same : m = mp
    · subst same
      exact released.best t owner u waits
    · rw [released.owner m same] at owner
      exact inherits.bound u ⟨m, owner, (released.waiting_iff same).mp waits⟩
  · rw [released.prio, released.real]
    rcases inherits.tight with h | ⟨u, ⟨m, owner, waits⟩, eq⟩
    · exact .inl h
    · have same : m ≠ mp := by
        rintro rfl
        rw [here, Option.some.injEq] at owner
        exact other owner.symm
      exact .inr ⟨u, ⟨m, (released.owner m same).trans owner, (released.waiting_iff same).mpr waits⟩, eq⟩

variable [DecidableEq T]

/-- What the thread that released the mutex still inherits. -/
theorem Released.lends_currp (released : Released s mp rest s') (wf : Wf idle s)
    (top : s.p_mtxlist s.core.currp = mp :: rest) {u : T} :
    s'.Lends u s.core.currp ↔ ∃ m ∈ rest, s.core.waiting u = some (.WTMTX m) := by
  obtain ⟨fresh, -⟩ := List.nodup_cons.mp (top ▸ wf.owners.nodup s.core.currp)
  have own := fun m => wf.owners.own m s.core.currp
  simp only [top, List.mem_cons] at own
  constructor
  · rintro ⟨m, owner, waits⟩
    have same : m ≠ mp := by
      rintro rfl
      exact released.other owner
    rw [released.owner m same] at owner
    exact ⟨m, ((own m).mpr owner).resolve_left same, (released.waiting_iff same).mp waits⟩
  · rintro ⟨m, mem, waits⟩
    have same : m ≠ mp := by
      rintro rfl
      exact fresh mem
    exact ⟨m, (released.owner m same).trans ((own m).mp (.inr mem)),
      (released.waiting_iff same).mpr waits⟩

theorem newprio_spec (wf : Wf idle s) (ctp : T) (l : List M) :
    s.realprio ctp ≤ s.newprio ctp l ∧
      (∀ m ∈ l, ∀ u ∈ s.m_queue m, s.prio u ≤ s.newprio ctp l) ∧
      (s.newprio ctp l = s.realprio ctp ∨ ∃ m ∈ l,
        ∃ u ∈ s.m_queue m, s.prio u = s.newprio ctp l) := by
  unfold newprio
  induction l using List.reverseRecOn with
  | nil => simp
  | append_singleton l m ih =>
      obtain ⟨real, bound, tight⟩ := ih
      have earlier : ∀ {q}, (∃ m' ∈ l, ∃ u ∈ s.m_queue m', s.prio u = q) →
          ∃ m' ∈ l ++ [m], ∃ u ∈ s.m_queue m', s.prio u = q := by
        rintro q ⟨m', hm', h⟩
        exact ⟨m', by simp [hm'], h⟩
      rw [List.foldl_append, List.foldl_cons, List.foldl_nil]
      generalize l.foldl _ _ = p at real bound tight ⊢
      cases eq : s.m_queue m with
      | nil =>
          refine ⟨real, ?_, tight.imp_right earlier⟩
          intro m' hm' u hu
          rcases List.mem_append.mp hm' with h | h
          · exact bound m' h u hu
          · rw [List.mem_singleton.mp h, eq] at hu
            simp at hu
      | cons tp q =>
          have sorted := (wf.queues.served m).descending
          rw [eq] at sorted
          simp only
          split_ifs with less
          · refine ⟨real.trans less.le, ?_, .inr ⟨m, by simp, tp, by simp [eq], rfl⟩⟩
            intro m' hm' u hu
            rcases List.mem_append.mp hm' with h | h
            · exact (bound m' h u hu).trans less.le
            · rw [List.mem_singleton.mp h, eq] at hu
              exact sorted.first hu
          · refine ⟨real, ?_, tight.imp_right earlier⟩
            intro m' hm' u hu
            rcases List.mem_append.mp hm' with h | h
            · exact bound m' h u hu
            · rw [List.mem_singleton.mp h, eq] at hu
              exact (sorted.first hu).trans (not_lt.mp less)

/-- The priority of the current thread may be any above its own. -/
theorem Wf.setPrio (wf : Wf idle s) {p : Nat} (above : s.realprio s.core.currp ≤ p) :
    Wf idle (s.setPrio s.core.currp p) := by
  have off : Off (s.core.waiting s.core.currp) := by
    rw [wf.core.waiting_currp]
    exact off_none
  refine ⟨wf.core.setPrio wf.core.currp_not_ready p, ?_, wf.owners, ?_, wf.pos⟩
  · exact ((wf.queues.leave off).setPrio p).enter off
  · intro t
    rw [setPrio_prio, Function.update_apply]
    split_ifs with same
    · rw [same]
      exact above
    · exact wf.real t

theorem Lends.ne_currp (wf : Wf idle s) {u t : T} (lends : s.Lends u t) : u ≠ s.core.currp := by
  rintro rfl
  obtain ⟨m, -, waits⟩ := lends
  exact absurd (wf.core.waiting_currp.symm.trans waits) (by simp)

theorem Inherits.setPrio (wf : Wf idle s) {t : T} (inherits : s.Inherits t)
    (other : t ≠ s.core.currp) (p : Nat) :
    (s.setPrio s.core.currp p).Inherits t := by
  have same : ∀ u, s.Lends u t → (s.setPrio s.core.currp p).prio u = s.prio u :=
    fun u lends => Function.update_of_ne (lends.ne_currp wf) _ _
  have here : (s.setPrio s.core.currp p).prio t = s.prio t := Function.update_of_ne other _ _
  constructor
  · intro u lends
    rw [here, same u lends]
    exact inherits.bound u lends
  · rw [here]
    rcases inherits.tight with h | ⟨u, lends, eq⟩
    · exact .inl h
    · exact .inr ⟨u, lends, (same u lends).trans eq⟩

/-- The thread `t` is served first of those that wait for `m`. -/
def First (s : Mtx T M C) (m : M) (t : T) : Prop :=
  ∀ u, s.core.waiting u = some (.WTMTX m) → u ≠ t →
    s.prio u < s.prio t ∨ s.prio u = s.prio t ∧ s.stamp t < s.stamp u

/-- A thread that waits for a mutex goes on waiting, or gets the mutex from the current
thread, and then it is the first to get it. -/
def Handed (s s' : Mtx T M C) : Prop :=
  ∀ t m, s.core.waiting t = some (.WTMTX m) → s'.core.waiting t = some (.WTMTX m) ∨
    s'.core.waiting t = none ∧ s'.m_owner m = some t ∧ s.m_owner m = some s.core.currp ∧ s.First m t

omit [DecidableEq T] in
/-- Nobody is handed a mutex. -/
theorem handed_of_waiting (kept : ∀ t m, s.core.waiting t = some (.WTMTX m) →
    s'.core.waiting t = some (.WTMTX m)) : Handed s s' :=
  fun t m waits => .inl (kept t m waits)

/-- What an unlock leaves: a new priority of the current thread does not matter to who is
first. -/
theorem Released.handed_setPrio (wf : Wf idle s) {p : Nat}
    (released : Released (s.setPrio s.core.currp p) mp rest s')
    (here : s.m_owner mp = some s.core.currp) :
    Handed s s' := by
  have others : ∀ t m, s.core.waiting t = some (.WTMTX m) →
      (s.setPrio s.core.currp p).prio t = s.prio t := by
    intro t m waits
    apply Function.update_of_ne
    rintro rfl
    exact absurd (wf.core.waiting_currp.symm.trans waits) (by simp)
  intro t m waits
  by_cases same : m = mp
  · subst same
    rcases released.handed t waits with h | ⟨h, owner, first⟩
    · exact .inl h
    · refine .inr ⟨h, owner, here, ?_⟩
      intro u hu ne
      have mem : u ∈ s.m_queue m := wf.queues.onM.mem_iff.mpr (mtxOf_eq_some.mpr hu)
      have := first u mem ne
      rwa [others u m hu, others t m waits] at this
  · exact .inl ((released.waiting_iff same).mpr waits)

/-- The first thread of a queue has the highest priority, and among equals it has been
there longest. -/
theorem Inv.first (inv : Inv idle s) {m : M} {t : T} (head : (s.m_queue m).head? = some t) :
    s.First m t := by
  obtain ⟨rest, eq⟩ := List.head?_eq_some_iff.mp head
  have served := inv.queues.served m
  rw [eq] at served
  intro u waits other
  have mem := inv.mem_queue.mpr waits
  rw [eq] at mem
  exact (List.pairwise_cons.mp served).1 u ((List.mem_cons.mp mem).resolve_left other)

/-- The new priority is what the other mutexes of the thread need. -/
theorem Released.inherits_newprio (wf : Wf idle s) (top : s.p_mtxlist s.core.currp = mp :: rest)
    (released : Released (s.setPrio s.core.currp (s.newprio s.core.currp rest)) mp rest s') :
    s'.Inherits s.core.currp := by
  obtain ⟨real, bound, tight⟩ := newprio_spec wf s.core.currp rest
  have prio : s'.prio s.core.currp = s.newprio s.core.currp rest := by
    rw [released.prio]
    exact Function.update_self _ _ _
  have others : ∀ u m, s.core.waiting u = some (.WTMTX m) → s'.prio u = s.prio u := by
    intro u m waits
    rw [released.prio]
    apply Function.update_of_ne
    rintro rfl
    exact absurd (wf.core.waiting_currp.symm.trans waits) (by simp)
  have lends : ∀ u, s'.Lends u s.core.currp ↔ ∃ m ∈ rest, s.core.waiting u = some (.WTMTX m) :=
    fun u => released.lends_currp (wf.setPrio real) top
  constructor
  · intro u h
    obtain ⟨m, hm, waits⟩ := (lends u).mp h
    rw [prio, others u m waits]
    exact bound m hm u (wf.mem_queue.mpr waits)
  · have same : s'.realprio s.core.currp = s.realprio s.core.currp := congrFun released.real _
    rw [prio, same]
    rcases tight with h | ⟨m, hm, u, hu, eq⟩
    · exact .inl h
    · have waits := wf.mem_queue.mp hu
      exact .inr ⟨u, (lends u).mpr ⟨m, hm, waits⟩, (others u m waits).trans eq⟩

/-- The release of a mutex nobody waits for changes nothing for its owner. -/
theorem Released.inherits_empty (inv : Inv idle s) (top : s.p_mtxlist s.core.currp = mp :: rest)
    (empty : s.m_queue mp = []) (released : Released s mp rest s') : s'.Inherits s.core.currp := by
  have own := fun m => inv.owners.own m s.core.currp
  simp only [top, List.mem_cons] at own
  constructor
  · intro u lends
    obtain ⟨m, hm, waits⟩ := (released.lends_currp inv.toWf top).mp lends
    rw [released.prio]
    exact (inv.inherits _).bound u ⟨m, (own m).mp (.inr hm), waits⟩
  · rw [released.prio, released.real]
    rcases (inv.inherits s.core.currp).tight with h | ⟨u, ⟨m, owner, waits⟩, eq⟩
    · exact .inl h
    · refine .inr ⟨u, (released.lends_currp inv.toWf top).mpr ⟨m, ?_, waits⟩, eq⟩
      apply ((own m).mpr owner).resolve_left
      rintro rfl
      have := inv.mem_queue.mpr waits
      rw [empty] at this
      simp at this

theorem inv_chMtxUnlockS [DecidableEq M] (inv : Inv idle s)
    (top : s.p_mtxlist s.core.currp = mp :: rest) (user : s.pc s.core.currp = .user) :
    Inv idle (s.chMtxUnlockS mp) ∧ Handed s (s.chMtxUnlockS mp) ∧ (s.chMtxUnlockS mp).pc = s.pc ∧
      (s.chMtxUnlockS mp).core.currp = s.core.currp ∧
      (s.chMtxUnlockS mp).m_owner mp = (s.m_queue mp).head? := by
  have here : s.m_owner mp = some s.core.currp := (inv.owners.own _ _).mp (by simp [top])
  have tail : (s.pop s.core.currp).p_mtxlist s.core.currp = rest := by
    change Function.update s.p_mtxlist s.core.currp (s.p_mtxlist s.core.currp).tail s.core.currp =
      rest
    rw [Function.update_self, top, List.tail_cons]
  unfold chMtxUnlockS
  dsimp only
  rw [tail]
  split_ifs with waited
  · have wf := inv.toWf.setPrio (newprio_spec inv.toWf s.core.currp rest).1
    obtain ⟨wf', released⟩ := wf.release top user
    refine ⟨⟨wf', ?_⟩, released.handed_setPrio inv.toWf here, released.pc, released.currp,
      released.gave⟩
    intro t
    by_cases same : t = s.core.currp
    · rw [same]
      exact released.inherits_newprio inv.toWf top
    · exact released.inherits here same ((inv.inherits t).setPrio inv.toWf same _)
  · have empty : s.m_queue mp = [] := not_not.mp waited
    obtain ⟨wf', released⟩ := inv.toWf.release top user
    refine ⟨⟨wf', ?_⟩, ?_, released.pc, released.currp, released.gave⟩
    · intro t
      by_cases same : t = s.core.currp
      · rw [same]
        exact released.inherits_empty inv top empty
      · exact released.inherits here same (inv.inherits t)
    · apply handed_of_waiting
      intro t m waits
      apply (released.waiting_iff _).mpr waits
      rintro rfl
      have := inv.mem_queue.mpr waits
      rw [empty] at this
      simp at this

/-- What `chMtxUnlockAll` leaves before the current thread gets its own priority back. -/
structure Unlocked (idle : T) (s s' : Mtx T M C) : Prop where
  wf : Wf idle s'
  inherits : ∀ t, t ≠ s.core.currp → s'.Inherits t
  pc : s'.pc = s.pc
  currp : s'.core.currp = s.core.currp
  prio : s'.prio = s.prio
  stamp : s'.stamp = s.stamp
  owner : ∀ m, m ∉ s.p_mtxlist s.core.currp → s'.m_owner m = s.m_owner m
  gave : ∀ m ∈ s.p_mtxlist s.core.currp, s'.m_owner m = (s.m_queue m).head?
  awake : ∀ t, s.core.waiting t = none → s'.core.waiting t = none
  handed : ∀ t m, s.core.waiting t = some (.WTMTX m) → s'.core.waiting t = some (.WTMTX m) ∨
    s'.core.waiting t = none ∧ s'.m_owner m = some t ∧ m ∈ s.p_mtxlist s.core.currp ∧ s.First m t

theorem unlocked_refl (wf : Wf idle s) (inherits : ∀ t, t ≠ s.core.currp → s.Inherits t)
    (none : s.p_mtxlist s.core.currp = []) : Unlocked idle s s :=
  ⟨wf, inherits, rfl, rfl, rfl, rfl, fun _ _ => rfl, fun m hm => absurd hm (by simp [none]),
    fun _ h => h,
    fun _ _ h => .inl h⟩

/-- One round of the loop, and the others. -/
theorem Released.unlocked {s'' : Mtx T M C} (wf : Wf idle s)
    (top : s.p_mtxlist s.core.currp = mp :: rest) (released : Released s mp rest s')
    (unlocked : Unlocked idle s' s'') : Unlocked idle s s'' := by
  obtain ⟨fresh, -⟩ := List.nodup_cons.mp (top ▸ wf.owners.nodup s.core.currp)
  have held : s'.p_mtxlist s'.core.currp = rest := by
    rw [released.currp]
    exact released.held
  have owner := unlocked.owner
  have handed := unlocked.handed
  have gave := unlocked.gave
  rw [held] at owner handed gave
  refine ⟨unlocked.wf, ?_, unlocked.pc.trans released.pc, unlocked.currp.trans released.currp,
    unlocked.prio.trans released.prio, unlocked.stamp.trans released.stamp, ?_, ?_, ?_, ?_⟩
  · rw [← released.currp]
    exact unlocked.inherits
  · intro m hm
    rw [top, List.mem_cons, not_or] at hm
    exact (owner m hm.2).trans (released.owner m hm.1)
  · intro m hm
    rw [top] at hm
    by_cases same : m = mp
    · rw [same, owner mp fresh, released.gave]
    · rw [gave m ((List.mem_cons.mp hm).resolve_left same), released.queue m same]
  · intro t h
    apply unlocked.awake
    rw [released.kept t (by simp [h]), h]
  · intro t m waits
    rw [top, List.mem_cons]
    by_cases same : m = mp
    · subst same
      rcases released.handed t waits with h | ⟨h, own, first⟩
      · rcases handed t m h with h' | ⟨-, -, mem, -⟩
        · exact .inl h'
        · exact absurd mem fresh
      · refine .inr ⟨unlocked.awake t h, (owner m fresh).trans own, .inl rfl, ?_⟩
        intro u hu
        exact first u (wf.mem_queue.mpr hu)
    · rcases handed t m ((released.waiting_iff same).mpr waits) with h | ⟨h, own, mem, first⟩
      · exact .inl h
      · refine .inr ⟨h, own, .inr mem, ?_⟩
        intro u hu
        have := first u ((released.waiting_iff same).mpr hu)
        rwa [released.prio, released.stamp] at this

theorem unlocked_unlockLoop [DecidableEq M] (wf : Wf idle s)
    (inherits : ∀ t, t ≠ s.core.currp → s.Inherits t) (user : s.pc s.core.currp = .user) {n : Nat}
    (rounds : (s.p_mtxlist s.core.currp).length = n) :
    Unlocked idle s (unlockLoop s.core.currp n s) ∧
      (unlockLoop s.core.currp n s).p_mtxlist s.core.currp = [] := by
  induction n generalizing s with
  | zero =>
      have none := List.length_eq_zero_iff.mp rounds
      exact ⟨unlocked_refl wf inherits none, none⟩
  | succ n ih =>
      obtain ⟨mp, rest, top⟩ : ∃ mp rest, s.p_mtxlist s.core.currp = mp :: rest :=
        List.exists_cons_of_length_eq_add_one rounds
      rw [unlockLoop, top]
      dsimp only
      have here : s.m_owner mp = some s.core.currp := (wf.owners.own _ _).mp (by simp [top])
      obtain ⟨wf', released⟩ := wf.release top user
      generalize (s.pop s.core.currp).handOff mp = s' at wf' released ⊢
      rw [top, List.length_cons, Nat.add_right_cancel_iff] at rounds
      rw [← released.currp] at user ⊢
      obtain ⟨unlocked, empty⟩ := ih wf'
        (fun t ht => released.inherits here (released.currp ▸ ht) (inherits t (released.currp ▸ ht)))
        (by rw [released.pc]; exact user)
        (by rw [released.currp, released.held]; exact rounds)
      exact ⟨released.unlocked wf top unlocked, empty⟩

end Unlock

/-! ### Other operations -/

section Others

variable [DecidableEq T] {idle : T} {s s' : Mtx T M C} {c : Core T (Wait M C)} {tp : T} {cp : C}

/-- Other changes leave alone who waits for a mutex, and keep the queues of the condition
variables. -/
theorem Inv.withCond {cq : C → List T} (inv : Inv idle s) (core : c.Inv idle)
    (prio : c.p_prio = s.core.p_prio) (mtx : ∀ t, mtxOf (c.waiting t) = mtxOf (s.core.waiting t))
    (inside : ∀ t m, s.pc t = .locking m → c.waiting t = s.core.waiting t)
    (onC : Queued none (fun t => condOf (c.waiting t)) cq) (order : ∀ cp, Descending s.prio (cq cp)) :
    Inv idle { s with core := c, c_queue := cq } := by
  have waits : ∀ t m, c.waiting t = some (.WTMTX m) ↔ s.core.waiting t = some (.WTMTX m) := by
    intro t m
    rw [← mtxOf_eq_some, ← mtxOf_eq_some, mtx]
  have same : ({ s with core := c, c_queue := cq } : Mtx T M C).prio = s.prio := prio
  constructor
  · refine ⟨core, ?_, inv.owners.congr waits inside, ?_, inv.pos⟩
    · rw [same]
      refine ⟨inv.queues.onM.congr fun t _ => mtx t, onC, inv.queues.served, order,
        inv.queues.stamps⟩
    · rw [same]
      exact inv.real
  · intro t
    constructor
    · rintro u ⟨m, owner, h⟩
      rw [same]
      exact (inv.inherits t).bound u ⟨m, owner, (waits u m).mp h⟩
    · rw [same]
      rcases (inv.inherits t).tight with h | ⟨u, ⟨m, owner, h⟩, eq⟩
      · exact .inl h
      · exact .inr ⟨u, ⟨m, owner, (waits u m).mpr h⟩, eq⟩

/-- A thread that waits for nothing, or for something without a queue, may change between
the two. -/
theorem Inv.withCore (inv : Inv idle s) (core : c.Inv idle) (prio : c.p_prio = s.core.p_prio)
    (same : ∀ t, c.waiting t = s.core.waiting t ∨
      (∀ m, s.pc t ≠ .locking m) ∧ Off (c.waiting t) ∧ Off (s.core.waiting t)) :
    Inv idle { s with core := c } := by
  apply inv.withCond core prio
  · intro t
    rcases same t with h | ⟨-, h, h'⟩
    · rw [h]
    · rw [h.1, h'.1]
  · intro t m inside
    rcases same t with h | ⟨h, -⟩
    · exact h
    · exact absurd inside (h m)
  · apply inv.queues.onC.congr
    intro t _
    rcases same t with h | ⟨-, h, h'⟩
    · rw [h]
    · rw [h.2, h'.2]
  · exact inv.queues.order

theorem Inv.setPc (inv : Inv idle s) {p : Pc M} (awake : ∀ m, s.core.waiting tp ≠ some (.WTMTX m))
    (outside : ∀ m, p ≠ .locking m) (other : tp = idle → p = .user) :
    Inv idle { s with pc := Function.update s.pc tp p } :=
  ⟨⟨inv.core, inv.queues, inv.owners.setPc awake outside other, inv.real, inv.pos⟩,
    fun t => ⟨(inv.inherits t).bound, (inv.inherits t).tight⟩⟩

theorem Inv.reschedule (inv : Inv idle s) : Inv idle s.reschedule :=
  inv.withCore inv.core.chSchRescheduleS (Core.chSchRescheduleS_p_prio _) fun t =>
    .inl (congrFun inv.core.waiting_chSchRescheduleS t)

/-- A thread that waits for a condition variable is in no other call. -/
theorem Inv.not_locking (inv : Inv idle s) (waits : s.core.waiting tp = some (.WTCOND cp)) (m : M) :
    s.pc tp ≠ .locking m := by
  intro inside
  rcases inv.owners.pc_lock tp m inside with h | ⟨h, -⟩
  · exact absurd (waits.symm.trans h) (by simp)
  · exact absurd (waits.symm.trans h) (by simp)

/-- A thread leaves the queue of a condition variable and becomes ready. -/
theorem Inv.leaveCond [DecidableEq C] (inv : Inv idle s) (core : c.Inv idle)
    (prio : c.p_prio = s.core.p_prio) (waits : s.core.waiting tp = some (.WTCOND cp))
    (waiting : c.waiting = Function.update s.core.waiting tp none) :
    Inv idle { s with
      core := c
      c_queue := Function.update s.c_queue cp ((s.c_queue cp).erase tp) } := by
  apply inv.withCond core prio
  · intro t
    rw [waiting, Function.update_apply]
    split_ifs with same
    · rw [same, waits]
      rfl
    · rfl
  · intro t m inside
    rw [waiting, Function.update_of_ne]
    rintro rfl
    exact inv.not_locking waits m inside
  · have moved := inv.queues.onC.depart (condOf_eq_some.mpr waits)
    have place : (fun t => condOf (c.waiting t)) =
        Function.update (fun t => condOf (s.core.waiting t)) tp none := by
      funext t
      rw [waiting, Function.update_apply, Function.update_apply]
      split_ifs
      · rfl
      · rfl
    rw [place]
    exact moved
  · exact forall_update inv.queues.order ((inv.queues.order cp).sublist List.erase_sublist)

theorem Inv.waits_first {rest : List T} (inv : Inv idle s) (first : s.c_queue cp = tp :: rest) :
    s.core.waiting tp = some (.WTCOND cp) :=
  condOf_eq_some.mp (inv.queues.onC.place_eq (by simp [first]))

/-- The first thread of a queue leaves it. -/
theorem Inv.signal [DecidableEq C] {rest : List T} (inv : Inv idle s)
    (first : s.c_queue cp = tp :: rest) (core : c.Inv idle) (prio : c.p_prio = s.core.p_prio)
    (waiting : c.waiting = Function.update s.core.waiting tp none) :
    Inv idle { s with core := c, c_queue := Function.update s.c_queue cp rest } := by
  have left := inv.leaveCond core prio (inv.waits_first first) waiting
  rwa [first, List.erase_cons_head] at left

theorem inv_chCondSignal [DecidableEq C] (inv : Inv idle s) (cp : C) :
    Inv idle (s.chCondSignal cp) := by
  unfold chCondSignal
  split
  · exact inv
  · next tp rest first =>
      apply inv.signal first
      · exact inv.core.chSchWakeupS (by simp [inv.waits_first first]) _
      · exact Core.chSchWakeupS_p_prio _ _ _
      · exact inv.core.waiting_chSchWakeupS tp MSG_OK

theorem inv_chCondSignalI [DecidableEq C] (inv : Inv idle s) (cp : C) :
    Inv idle (s.chCondSignalI cp) := by
  unfold chCondSignalI
  split
  · exact inv
  · next tp rest first =>
      apply inv.signal first
      · exact (inv.core.setMsg tp MSG_OK).chSchReadyI (by simp [inv.waits_first first])
      · rfl
      · rw [Core.waiting_chSchReadyI, Core.waiting_setMsg]

/-- One round of a broadcast. -/
theorem Inv.reset_first [DecidableEq C] {rest : List T} (inv : Inv idle s)
    (first : s.c_queue cp = tp :: rest) :
    Inv idle { s with
        core := (s.core.chSchReadyI tp).setMsg tp MSG_RESET
        c_queue := Function.update s.c_queue cp rest } ∧
      ((s.core.chSchReadyI tp).setMsg tp MSG_RESET).waiting =
        Function.update s.core.waiting tp none := by
  have waiting : ((s.core.chSchReadyI tp).setMsg tp MSG_RESET).waiting =
      Function.update s.core.waiting tp none := by
    rw [Core.waiting_setMsg, Core.waiting_chSchReadyI]
  have core : ((s.core.chSchReadyI tp).setMsg tp MSG_RESET).Inv idle :=
    (inv.core.chSchReadyI (by simp [inv.waits_first first])).setMsg tp MSG_RESET
  exact ⟨inv.signal first core rfl waiting, waiting⟩

theorem inv_broadcastLoop [DecidableEq C] (inv : Inv idle s) (cp : C) (n : Nat) :
    Inv idle (broadcastLoop cp n s) := by
  induction n generalizing s with
  | zero => exact inv
  | succ n ih =>
      rw [broadcastLoop]
      split
      · exact inv
      · next tp rest first =>
          exact ih (inv.reset_first first).1

theorem inv_timeout [DecidableEq C] (inv : Inv idle s)
    (waits : s.core.waiting tp = some (.WTCOND cp)) :
    Inv idle (s.timeout tp cp) := by
  have core : ((s.core.setMsg tp MSG_TIMEOUT).chSchReadyI tp).Inv idle :=
    (inv.core.setMsg tp MSG_TIMEOUT).chSchReadyI (by simp [waits])
  exact inv.leaveCond core rfl waits (Core.waiting_chSchReadyI _ _)

theorem chCondWaitS_eq [DecidableEq M] [DecidableEq C] {mp : M} {rest : List M}
    (top : s.p_mtxlist s.core.currp = mp :: rest) (cp : C) (timed : Bool) :
    s.chCondWaitS cp timed = { (s.chMtxUnlockS mp).queueC s.core.currp cp with
      core := (s.chMtxUnlockS mp).core.chSchGoSleepS (.WTCOND cp)
      pc := Function.update (s.chMtxUnlockS mp).pc s.core.currp (.relock mp timed) } := by
  unfold chCondWaitS
  dsimp only
  rw [top]
  rfl

theorem inv_chCondWaitS [DecidableEq M] [DecidableEq C] (inv : Inv idle s)
    (user : s.pc s.core.currp = .user) (other : s.core.currp ≠ idle) {mp : M} {rest : List M}
    (top : s.p_mtxlist s.core.currp = mp :: rest) (cp : C) (timed : Bool) :
    Inv idle (s.chCondWaitS cp timed) ∧ Handed s (s.chCondWaitS cp timed) ∧
      (s.chCondWaitS cp timed).m_owner mp = (s.m_queue mp).head? := by
  obtain ⟨inv', handed, pc, currp, gave⟩ := inv_chMtxUnlockS inv top user
  rw [chCondWaitS_eq top]
  generalize s.chMtxUnlockS mp = s₁ at inv' handed pc currp gave ⊢
  rw [← currp] at other ⊢
  have awake := inv'.core.waiting_currp
  have waiting := inv'.core.waiting_chSchGoSleepS (.WTCOND cp)
  have prio : (s₁.core.chSchGoSleepS (.WTCOND cp)).p_prio = s₁.core.p_prio :=
    Core.chSchGoSleepS_p_prio _ _
  have user' : s₁.pc s₁.core.currp = .user := by rw [pc, currp, user]
  refine ⟨?_, ?_, gave⟩
  · have asleep : Inv idle { s₁ with
        core := s₁.core.chSchGoSleepS (.WTCOND cp)
        c_queue := Function.update s₁.c_queue cp
          (insertBehind s₁.prio s₁.core.currp (s₁.c_queue cp)) } := by
      apply inv'.withCond (inv'.core.chSchGoSleepS other _) prio
      · intro t
        rw [waiting, Function.update_apply]
        split_ifs with same
        · rw [same, awake]
          rfl
        · rfl
      · intro t m inside
        rw [waiting, Function.update_of_ne]
        rintro rfl
        rw [user'] at inside
        cases inside
      · have off : condOf (s₁.core.waiting s₁.core.currp) = none := by rw [awake]; rfl
        have place : (fun t => condOf ((s₁.core.chSchGoSleepS (.WTCOND cp)).waiting t)) =
            Function.update (fun t => condOf (s₁.core.waiting t)) s₁.core.currp (some cp) := by
          funext t
          rw [waiting, Function.update_apply, Function.update_apply]
          split_ifs
          · rfl
          · rfl
        rw [place]
        exact inv'.queues.onC.arrive off (fun t => mem_insertBehind)
          (nodup_insertBehind (inv'.queues.onC.nodup cp) (inv'.queues.onC.not_mem off cp))
      · exact forall_update inv'.queues.order ((inv'.queues.order cp).insertBehind _)
    apply asleep.setPc
    · intro m
      change (s₁.core.chSchGoSleepS (.WTCOND cp)).waiting s₁.core.currp ≠ _
      rw [waiting, Function.update_self]
      simp
    · simp
    · intro eq
      exact absurd eq other
  · intro t m waits
    change (s₁.core.chSchGoSleepS (.WTCOND cp)).waiting t = _ ∨
      (s₁.core.chSchGoSleepS (.WTCOND cp)).waiting t = _ ∧ _
    rw [waiting, Function.update_of_ne]
    · exact handed t m waits
    · rintro rfl
      rw [currp] at waits
      exact absurd (inv.core.waiting_currp.symm.trans waits) (by simp)

theorem inv_chMtxUnlockAll [DecidableEq M] (inv : Inv idle s) (user : s.pc s.core.currp = .user) :
    Inv idle s.chMtxUnlockAll ∧ Handed s s.chMtxUnlockAll ∧
      ∀ m ∈ s.p_mtxlist s.core.currp, s.chMtxUnlockAll.m_owner m = (s.m_queue m).head? := by
  unfold chMtxUnlockAll
  dsimp only
  split_ifs with owns
  · obtain ⟨unlocked, empty⟩ := unlocked_unlockLoop inv.toWf (fun t _ => inv.inherits t) user rfl
    generalize unlockLoop s.core.currp (s.p_mtxlist s.core.currp).length s = s₁ at unlocked empty ⊢
    have wf := unlocked.wf
    have nothing : ∀ u, ¬ s₁.Lends u s.core.currp := by
      rintro u ⟨m, owner, -⟩
      rw [← wf.owners.own, empty] at owner
      simp at owner
    have restored : Inv idle (s₁.setPrio s.core.currp (s₁.realprio s.core.currp)) := by
      rw [← unlocked.currp]
      refine ⟨wf.setPrio le_rfl, ?_⟩
      intro t
      by_cases same : t = s₁.core.currp
      · subst same
        constructor
        · intro u lends
          exact absurd lends (unlocked.currp ▸ nothing u)
        · exact .inl (Function.update_self _ _ _)
      · exact (unlocked.inherits t (unlocked.currp ▸ same)).setPrio wf same _
    refine ⟨restored.reschedule, ?_, unlocked.gave⟩
    intro t m waits
    have waiting : (s₁.setPrio s.core.currp (s₁.realprio s.core.currp)).reschedule.core.waiting t =
        s₁.core.waiting t := congrFun restored.core.waiting_chSchRescheduleS t
    rw [waiting]
    rcases unlocked.handed t m waits with h | ⟨h, owner, mem, first⟩
    · exact .inl h
    · exact .inr ⟨h, owner, (inv.owners.own m _).mp mem, first⟩
  · have none := not_not.mp owns
    exact ⟨inv, fun t m waits => .inl waits, fun m hm => absurd hm (by simp [none])⟩

end Others

end Mtx

end LtcOs.Kernel
