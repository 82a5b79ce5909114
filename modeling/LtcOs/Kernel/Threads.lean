import LtcOs.Kernel.Effect
import LtcOs.Lib.Lifetime
import LtcOs.Lib.Ring
import LtcOs.Lib.Waiting

/-!
The life of threads (`chthreads.c`, `chdynamic.c`, `chregistry.c`).

A thread object counts the references to it. The working area of a thread from the heap goes
back to the heap when the last reference is released after its exit; between the decision,
which is made under the lock, and the call of `chHeapFree` other threads run. The registry is
a list of threads, linked through the objects. A thread from the heap leaves it with its last
reference, a static thread at its exit.

An area is allocated and its thread created in one step, as nobody knows the area before.
Heap areas are used again as soon as they are free; the area of a static thread is used again
after its exit when no program or call has a reference.
-/

namespace LtcOs.Kernel

open LtcOs.Lifetime
open LtcOs.Linked

/-- What a thread waits for. An area that was never used is `UNUSED`, and `OTHER` stands for
everything else. -/
inductive ThdWait where
  | WTSTART
  | WTEXIT
  | FINAL
  | UNUSED
  | OTHER
deriving DecidableEq, Repr

inductive Mode where
  | STATIC
  | HEAP
deriving DecidableEq, Repr

/-- A thread is outside, slept in `chThdWait` and returns to it locked, is before the
`chThdRelease` of `chThdWait` or `chRegNextThread`, or before `chHeapFree`; with what
`chThdWait` will return. -/
inductive ThdPc (T : Type) where
  | outside
  | waiting (tp : T)
  | releasing (tp : T) (msg : Option Int)
  | freeing (tp : T) (msg : Option Int)
deriving DecidableEq, Repr

abbrev ThdEvent (T : Type) := Lifetime.Event T T Int

/-- The header of the registry is the node `none`. Of the references, `held` are in the hands
of programs, and the iteration has one to the thread it is at; the steps of a run count them
and note in the history when one is added or given up, the code does not. -/
structure Threads (T : Type) where
  core : Core T ThdWait
  area : T → Bool
  p_flags : T → Mode
  p_refs : T → UInt8
  p_waiting : T → List T
  exitcode : T → Int
  links : Links (Option T)
  held : T → Nat
  cursor : Option T
  pc : T → ThdPc T
  log : List (ThdEvent T)

variable {T : Type}

namespace Threads

/-! ### The code -/

section Code

variable [DecidableEq T]

def REG_INSERT (k : Links (Option T)) (tp : T) : Links (Option T) := k.insertBefore (some tp) none

def REG_REMOVE (k : Links (Option T)) (tp : T) : Links (Option T) := k.unlink (some tp)

/-- `chThdCreateI` and `chSchWakeupS`. -/
def create (s : Threads T) (mode : Mode) (tp : T) (prio : Nat) : Threads T :=
  let core := ((s.core.setPrio tp prio).setState tp (.WAIT .WTSTART)).setPreempt tp
    CH_CFG_TIME_QUANTUM
  { s with
    core := core.chSchWakeupS tp MSG_OK
    area := Function.update s.area tp true
    p_flags := Function.update s.p_flags tp mode
    p_refs := Function.update s.p_refs tp 1
    p_waiting := Function.update s.p_waiting tp []
    links := REG_INSERT s.links tp
    log := s.log ++ [.created tp (mode == .HEAP)] }

def chThdCreateFromHeap (s : Threads T) (tp : T) (prio : Nat) : Threads T := s.create .HEAP tp prio

def chThdCreateStatic (s : Threads T) (tp : T) (prio : Nat) : Threads T := s.create .STATIC tp prio

def chThdAddRef (s : Threads T) (tp : T) : Threads T :=
  { s with p_refs := Function.update s.p_refs tp (s.p_refs tp + 1) }

/-- The current thread leaves the call. -/
def leave (s : Threads T) (msg : Option Int) : Threads T :=
  { s with
    pc := Function.update s.pc s.core.currp .outside
    log := match msg with
      | some msg => s.log ++ [.returned s.core.currp msg]
      | none => s.log }

/-- `chThdRelease`, up to the call of `chHeapFree`. -/
def release (s : Threads T) (tp : T) (msg : Option Int) : Threads T :=
  let refs := s.p_refs tp - 1
  let s : Threads T := { s with p_refs := Function.update s.p_refs tp refs }
  if refs = 0 ∧ s.core.p_state tp = .WAIT .FINAL ∧ s.p_flags tp = .HEAP then
    { s with
      links := REG_REMOVE s.links tp
      pc := Function.update s.pc s.core.currp (.freeing tp msg) }
  else s.leave msg

def chThdRelease (s : Threads T) (tp : T) : Threads T := s.release tp none

def chHeapFree (s : Threads T) (tp : T) (msg : Option Int) : Threads T :=
  leave { s with area := Function.update s.area tp false, log := s.log ++ [.freed tp] } msg

/-- The threads in `chThdWait` are made ready. -/
def readyAll (c : Core T ThdWait) : List T → Core T ThdWait
  | [] => c
  | tp :: rest => readyAll (c.chSchReadyI tp) rest

def chThdExitS (s : Threads T) (msg : Int) : Threads T :=
  let tp := s.core.currp
  { s with
    exitcode := Function.update s.exitcode tp msg
    core := (readyAll s.core (s.p_waiting tp)).chSchGoSleepS .FINAL
    p_waiting := Function.update s.p_waiting tp []
    links := if s.p_flags tp = .STATIC then REG_REMOVE s.links tp else s.links
    log := s.log ++ [.exited tp msg] }

/-- The exit code is read. -/
def collect (s : Threads T) (tp : T) : Threads T :=
  { s with
    pc := Function.update s.pc s.core.currp (.releasing tp (some (s.exitcode tp)))
    log := s.log ++ [.read s.core.currp tp (s.exitcode tp)] }

def chThdWait (s : Threads T) (tp : T) : Threads T :=
  if s.core.p_state tp = .WAIT .FINAL then s.collect tp
  else { s with
    p_waiting := Function.update s.p_waiting tp (s.core.currp :: s.p_waiting tp)
    core := s.core.chSchGoSleepS .WTEXIT
    pc := Function.update s.pc s.core.currp (.waiting tp) }

/-- The iteration gets the thread of the node, if it is one. -/
def visit (s : Threads T) (node : Option T) : Threads T :=
  match node with
  | some tp => { s with
      p_refs := Function.update s.p_refs tp (s.p_refs tp + 1)
      cursor := some tp }
  | none => { s with cursor := none }

def chRegFirstThread (s : Threads T) : Threads T := s.visit (s.links.next none)

/-- `chRegNextThread`, up to the release of the thread the iteration was at. -/
def chRegNextThread (s : Threads T) (tp : T) : Threads T :=
  let s := s.visit (s.links.next (some tp))
  { s with pc := Function.update s.pc s.core.currp (.releasing tp none) }

end Code

/-! ### Runs -/

section Steps

variable [DecidableEq T]

/-- A program has one reference more. -/
def hold (s : Threads T) (tp : T) : Threads T :=
  { s with held := Function.update s.held tp (s.held tp + 1) }

/-- A program hands a reference to a call. -/
def handOver (s : Threads T) (tp : T) : Threads T :=
  { s with held := Function.update s.held tp (s.held tp - 1) }

def note (s : Threads T) (e : ThdEvent T) : Threads T := { s with log := s.log ++ [e] }

/-- The iteration has the reference it was given. -/
def noteVisit (s : Threads T) : Threads T :=
  match s.cursor with
  | some tp => s.note (.retained tp)
  | none => s

/-- The thread to which a call has a reference of its own. -/
def owns : ThdPc T → Option T
  | .waiting tp => some tp
  | .releasing tp _ => some tp
  | _ => none

/-- The thread is locked out by nothing: it did not just wake in `chThdWait`. -/
def Unlocked (s : Threads T) : Prop := ∀ tp, s.pc s.core.currp ≠ .waiting tp

/-- What interrupt handlers and threads do besides. The idle thread does not sleep. -/
inductive Other (idle : T) : Threads T → Threads T → Prop where
  | ready {s : Threads T} (tp : T) (msg : Int) (waits : s.core.waiting tp = some .OTHER) :
      Other idle s { s with core := (s.core.setMsg tp msg).chSchReadyI tp }
  | tick {s : Threads T} : Other idle s { s with core := s.core.tick }
  | sleep {s : Threads T} (out : s.pc s.core.currp = .outside) (other : s.core.currp ≠ idle) :
      Other idle s { s with core := s.core.chSchGoSleepS .OTHER }
  | wakeup {s : Threads T} (tp : T) (msg : Int) (waits : s.core.waiting tp = some .OTHER) :
      Other idle s { s with core := s.core.chSchWakeupS tp msg }
  | switch {s : Threads T} {c : Core T ThdWait} (switch : s.core.Switch c) :
    Other idle s { s with core := c }

/-- The kinds of steps. -/
inductive Kind (T : Type) where
  | create (tp : T)
  | walk
  | other
deriving DecidableEq, Repr

/-- One step under the kernel lock, or a call of `chHeapFree`. A reference is added by a
program that has one, or by the thread itself; and it is released once. The creator of a thread
has the first one. No thread has more than 255 references. -/
inductive Step (idle : T) : Kind T → Threads T → Threads T → Prop where
  | createFromHeap {s : Threads T} (tp : T) (prio : Nat) (out : s.pc s.core.currp = .outside)
    (pos : NOPRIO < prio)
      (free : s.area tp = false) : Step idle (.create tp) s ((s.chThdCreateFromHeap tp prio).hold tp)
  | createStatic {s : Threads T} (tp : T) (prio : Nat) (out : s.pc s.core.currp = .outside)
    (pos : NOPRIO < prio)
      (free : s.area tp = false ∨
        s.p_flags tp = .STATIC ∧ s.core.p_state tp = .WAIT .FINAL ∧ s.held tp = 0 ∧
        ∀ t, owns (s.pc t) ≠ some tp) :
          Step idle (.create tp) s ((s.chThdCreateStatic tp prio).hold tp)
  | addRef {s : Threads T} (tp : T) (out : s.pc s.core.currp = .outside)
    (known : 0 < s.held tp ∨ tp = s.core.currp)
      (few : (s.p_refs tp).toNat < 255) :
        Step idle .other s (((s.chThdAddRef tp).hold tp).note (.retained tp))
  | release {s : Threads T} (tp : T) (out : s.pc s.core.currp = .outside) (mine : 0 < s.held tp) :
      Step idle .other s (((s.handOver tp).note (.released tp)).chThdRelease tp)
  | wait {s : Threads T} (tp : T) (out : s.pc s.core.currp = .outside) (mine : 0 < s.held tp)
      (other : s.core.currp ≠ idle) (differs : tp ≠ s.core.currp) :
        Step idle .other s ((s.handOver tp).chThdWait tp)
  | resume {s : Threads T} (tp : T) (inside : s.pc s.core.currp = .waiting tp) :
    Step idle .other s (s.collect tp)
  | releasing {s : Threads T} (tp : T) (msg : Option Int)
    (inside : s.pc s.core.currp = .releasing tp msg) :
      Step idle .other s ((s.note (.released tp)).release tp msg)
  | freeing {s : Threads T} (tp : T) (msg : Option Int)
    (inside : s.pc s.core.currp = .freeing tp msg) :
      Step idle .other s (s.chHeapFree tp msg)
  | exit {s : Threads T} (msg : Int) (out : s.pc s.core.currp = .outside)
    (other : s.core.currp ≠ idle) :
      Step idle .other s (s.chThdExitS msg)
  | first {s : Threads T} (out : s.pc s.core.currp = .outside) (ended : s.cursor = none)
      (few : ∀ tp, s.links.next none = some tp → (s.p_refs tp).toNat < 255) :
        Step idle .walk s s.chRegFirstThread.noteVisit
  | next {s : Threads T} (tp : T) (out : s.pc s.core.currp = .outside) (at_ : s.cursor = some tp)
      (few : ∀ ntp, s.links.next (some tp) = some ntp → (s.p_refs ntp).toNat < 255) :
      Step idle .walk s (s.chRegNextThread tp).noteVisit
  | other {s s' : Threads T} (unlocked : s.Unlocked) (step : Other idle s s') :
    Step idle .other s s'

/-- The threads that the system starts with are static and in the registry; each has one
reference. -/
structure Start (idle : T) (first : List T) (s : Threads T) : Prop where
  core : s.core.Sound idle
  registry : Ring s.links none (first.map some)
  there : ∀ t, t ∈ first → s.area t = true ∧ s.p_flags t = .STATIC ∧ s.p_refs t = 1 ∧ s.held t = 1 ∧
    (s.core.waiting t = none ∨ s.core.waiting t = some .OTHER)
  absent : ∀ t, t ∉ first → s.area t = false ∧ s.held t = 0 ∧ s.core.waiting t = some .UNUSED
  waiting : ∀ t, s.p_waiting t = []
  cursor : s.cursor = none
  pc : ∀ t, s.pc t = .outside
  log : s.log = []

/-- States reached by steps that meet a condition. -/
def Reach (ok : Kind T → Threads T → Threads T → Prop) (idle : T) (first : List T) (s : Threads T) :
    Prop :=
  ∃ s₀, Start idle first s₀ ∧
    Relation.ReflTransGen (fun s s' => ∃ kind, ok kind s s' ∧ Step idle kind s s') s₀ s

end Steps

/-! ### The invariant -/

/-- The exit code a call has read. -/
def result : ThdPc T → Option Int
  | .releasing _ msg => msg
  | .freeing _ msg => msg
  | _ => none

/-- The object is in memory as the ledger has it. -/
structure Known (s : Threads T) (t : T) (o : Obj Int) : Prop where
  area : s.area t = true
  flags : s.p_flags t = if o.collected then .HEAP else .STATIC
  refs : (s.p_refs t).toNat = o.refs

/-- What the life of a thread says about its object. -/
def Matches (s : Threads T) (t : T) (o : Obj Int) : Prop :=
  match o.life with
  | .absent =>
      s.area t = false ∧ o.refs = 0 ∧
        (s.core.waiting t = some .UNUSED ∨ s.core.waiting t = some .FINAL)
  | .running => Known s t o ∧ s.core.waiting t ≠ some .UNUSED ∧ s.core.waiting t ≠ some .FINAL
  | .exited code => Known s t o ∧ s.core.waiting t = some .FINAL ∧ s.exitcode t = code
  | .doomed =>
      s.area t = true ∧ s.p_flags t = .HEAP ∧ o.refs = 0 ∧ s.core.waiting t = some .FINAL ∧
        s.p_refs t = 0

/-- The registry has the threads that run, and those from the heap until they are doomed. -/
def listed (o : Obj Int) : Bool :=
  match o.life with
  | .running => true
  | .exited _ => o.collected
  | _ => false

/-- The references to a thread: those in the hands of programs, those of the calls, and that
of the iteration. -/
def total (s : Threads T) [DecidableEq T] (owners : T → List T) (t : T) : Nat :=
  s.held t + (owners t).length + if s.cursor = some t then 1 else 0

/-- A thread in `chThdWait` sleeps while the other runs, and is awake after its exit. -/
def Waits (s : Threads T) (l : Ledger T T Int) (t tp : T) : Prop :=
  (s.core.waiting t = some .WTEXIT ∧ (l.obj tp).life = .running) ∨
    (s.core.waiting t = none ∧ ∃ code, (l.obj tp).life = .exited code)

structure Inv [DecidableEq T] (idle : T) (s : Threads T) (l : Ledger T T Int) : Prop where
  core : s.core.Sound idle
  obj : ∀ t, Matches s t (l.obj t)
  got : l.got = result ∘ s.pc
  inside : ∀ t, s.pc t ≠ .outside → (l.obj t).life = .running
  refs : ∃ owners, Waiting.Queued none (owns ∘ s.pc) owners ∧ ∀ t, (l.obj t).refs = total s owners t
  sleepers : ∀ tp t, t ∈ s.p_waiting tp ↔ s.pc t = .waiting tp ∧ s.core.waiting t = some .WTEXIT
  nodup : ∀ tp, (s.p_waiting tp).Nodup
  waits : ∀ t tp, s.pc t = .waiting tp → Waits s l t tp
  freeing : ∀ t tp msg, s.pc t = .freeing tp msg → (l.obj tp).life = .doomed
  doomed : ∀ tp, (l.obj tp).life = .doomed → ∃ t, ∀ t', (∃ msg, s.pc t' = .freeing tp msg) ↔ t' = t
  registry : ∃ reg : List T,
      Ring s.links none (reg.map some) ∧ ∀ t, t ∈ reg ↔ listed (l.obj t) = true

/-! ### Objects -/

section Objects

variable {s s' : Threads T} {t tp : T} {o : Obj Int}

theorem Matches.congr (here : Matches s t o) (area : s'.area t = s.area t)
    (flags : s'.p_flags t = s.p_flags t) (refs : s'.p_refs t = s.p_refs t)
    (exitcode : s'.exitcode t = s.exitcode t) (waiting : s'.core.waiting t = s.core.waiting t) :
    Matches s' t o := by
  have known : Known s t o → Known s' t o := by
    rintro ⟨a, f, r⟩
    exact ⟨area.trans a, flags.trans f, by rw [refs]; exact r⟩
  unfold Matches at here ⊢
  cases life : o.life with
  | absent =>
      rw [life] at here
      dsimp only at here ⊢
      rw [area, waiting]
      exact here
  | running =>
      rw [life] at here
      dsimp only at here ⊢
      rw [waiting]
      exact ⟨known here.1, here.2⟩
  | exited code =>
      rw [life] at here
      dsimp only at here ⊢
      rw [waiting, exitcode]
      exact ⟨known here.1, here.2⟩
  | doomed =>
      rw [life] at here
      dsimp only at here ⊢
      rw [area, flags, waiting, refs]
      exact here

theorem Matches.running (here : Matches s t o) (life : o.life = .running) :
    Known s t o ∧ s.core.waiting t ≠ some .UNUSED ∧ s.core.waiting t ≠ some .FINAL := by
  rw [Matches, life] at here
  exact here

theorem Matches.exited {code : Int} (here : Matches s t o) (life : o.life = .exited code) :
    Known s t o ∧ s.core.waiting t = some .FINAL ∧ s.exitcode t = code := by
  rw [Matches, life] at here
  exact here

/-- The areas of threads from the heap are collected, those of static threads are not. -/
theorem Known.collected_iff (known : Known s t o) : o.collected = true ↔ s.p_flags t = .HEAP := by
  rw [known.flags]
  cases o.collected <;> simp

/-- A thread with references is in memory. -/
theorem Matches.of_refs (here : Matches s t o) (pos : 0 < o.refs) :
    Known s t o ∧ ((o.life = .running ∧ s.core.waiting t ≠ some .FINAL) ∨
      (o.life = .exited (s.exitcode t) ∧ s.core.waiting t = some .FINAL)) := by
  cases life : o.life with
  | absent =>
      rw [Matches, life] at here
      exact absurd here.2.1 (by omega)
  | running =>
      obtain ⟨known, -, other⟩ := here.running life
      exact ⟨known, .inl ⟨rfl, other⟩⟩
  | exited code =>
      obtain ⟨known, final, eq⟩ := here.exited life
      exact ⟨known, .inr ⟨by rw [eq], final⟩⟩
  | doomed =>
      rw [Matches, life] at here
      exact absurd here.2.2.1 (by omega)

/-- A thread that is awake, or waits for something but its end, runs. -/
theorem Matches.of_awake (here : Matches s t o) (unused : s.core.waiting t ≠ some .UNUSED)
    (final : s.core.waiting t ≠ some .FINAL) : o.life = .running := by
  cases life : o.life with
  | running => rfl
  | absent =>
      rw [Matches, life] at here
      rcases here.2.2 with eq | eq
      · exact absurd eq unused
      · exact absurd eq final
  | exited code => exact absurd (here.exited life).2.1 final
  | doomed =>
      rw [Matches, life] at here
      exact absurd here.2.2.2.1 final

theorem Matches.absent (here : Matches s t o) (area : s.area t = false) :
    o.life = .absent ∧ o.refs = 0 := by
  cases life : o.life with
  | absent =>
      rw [Matches, life] at here
      exact ⟨rfl, here.2.1⟩
  | running =>
      have := (here.running life).1.area
      rw [area] at this
      cases this
  | exited code =>
      have := (here.exited life).1.area
      rw [area] at this
      cases this
  | doomed =>
      rw [Matches, life] at here
      have := here.1
      rw [area] at this
      cases this

end Objects

end Threads

end LtcOs.Kernel
