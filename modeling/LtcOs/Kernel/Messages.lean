import LtcOs.Kernel.Effect
import LtcOs.Lib.Rendezvous

/-!
Synchronous messages (`chmsg.c`, `chmsg.h`).

A thread that sends a message sleeps until the receiver has obtained the message with
`chMsgWait` and given an answer with `chMsgRelease`. The thread object of the sender is the
message: it is linked into the queue of the receiver. Every thread has a queue, and a
receiver may itself send.
-/

namespace LtcOs.Kernel

open LtcOs.Rendezvous

/-- What a thread waits for; `OTHER` stands for everything but messages. -/
inductive MsgWait where
  | SNDMSGQ
  | SNDMSG
  | WTMSG
  | OTHER
deriving DecidableEq, Repr

/-- A thread is in `chMsgSend` or in `chMsgWait` and returns to it locked, or outside. -/
inductive MsgPc where
  | outside
  | sending
  | receiving
deriving DecidableEq, Repr

abbrev MsgEvent (T : Type) := Rendezvous.Event T T Int Int

structure Messages (T : Type) where
  core : Core T MsgWait
  p_msg : T → Int
  p_msgqueue : T → List T
  pc : T → MsgPc
  log : List (MsgEvent T)

variable {T : Type}

namespace Messages

/-! ### The code -/

section Code

variable [DecidableEq T]

def chMsgSend (s : Messages T) (tp : T) (msg : Int) : Messages T :=
  let ctp := s.core.currp
  let core := if s.core.p_state tp = .WAIT .WTMSG then s.core.chSchReadyI tp else s.core
  { p_msg := Function.update s.p_msg ctp msg
    p_msgqueue := Function.update s.p_msgqueue tp (s.p_msgqueue tp ++ [ctp])
    core := core.chSchGoSleepS .SNDMSGQ
    pc := Function.update s.pc ctp .sending
    log := s.log ++ [.sent ctp tp msg] }

/-- The rest of `chMsgSend`, when the sender runs again; it returns the answer. -/
def sendReturns (s : Messages T) : Int × Messages T :=
  let ctp := s.core.currp
  let msg := s.core.rdymsg ctp
  (msg, { s with
    pc := Function.update s.pc ctp .outside
    log := s.log ++ [.returned ctp msg] })

def chMsgIsPendingI (s : Messages T) (tp : T) : Bool := !(s.p_msgqueue tp).isEmpty

/-- The rest of `chMsgWait`, after the test or when the receiver runs again. It returns the
thread whose message it is. -/
def receive (s : Messages T) : Option T × Messages T :=
  match s.p_msgqueue s.core.currp with
  | [] => (none, s)
  | tp :: rest => (some tp, { s with
      p_msgqueue := Function.update s.p_msgqueue s.core.currp rest
      core := s.core.setState tp (.WAIT .SNDMSG)
      pc := Function.update s.pc s.core.currp .outside
      log := s.log ++ [.obtained s.core.currp tp (s.p_msg tp)] })

/-- The sender, or none if the receiver sleeps. -/
def chMsgWait (s : Messages T) : Option T × Messages T :=
  if s.chMsgIsPendingI s.core.currp then s.receive
  else (none, { s with
    core := s.core.chSchGoSleepS .WTMSG
    pc := Function.update s.pc s.core.currp .receiving })

def chMsgRelease (s : Messages T) (tp : T) (msg : Int) : Messages T :=
  { s with core := s.core.chSchWakeupS tp msg, log := s.log ++ [.released s.core.currp tp msg] }

end Code

/-! ### Runs -/

section Steps

variable [DecidableEq T]

/-- The sender is one of those the receiver has obtained and not released. -/
def Obtained (s : Messages T) (receiver tp : T) : Prop :=
  ∃ p msg, replay s.log = some p ∧ p.phase tp = .held receiver msg

/-- What interrupt handlers and threads do besides. The idle thread does not sleep. -/
inductive Other (idle : T) : Messages T → Messages T → Prop where
  | ready {s : Messages T} (tp : T) (msg : Int) (waits : s.core.waiting tp = some .OTHER) :
      Other idle s { s with core := (s.core.setMsg tp msg).chSchReadyI tp }
  | tick {s : Messages T} : Other idle s { s with core := s.core.tick }
  | sleep {s : Messages T} (other : s.core.currp ≠ idle) :
    Other idle s { s with core := s.core.chSchGoSleepS .OTHER }
  | wakeup {s : Messages T} (tp : T) (msg : Int) (waits : s.core.waiting tp = some .OTHER) :
      Other idle s { s with core := s.core.chSchWakeupS tp msg }
  | switch {s : Messages T} {c : Core T MsgWait} (switch : s.core.Switch c) :
    Other idle s { s with core := c }

/-- One step under the kernel lock. -/
inductive Step (idle : T) : Messages T → Messages T → Prop where
  | send {s : Messages T} (tp : T) (msg : Int) (out : s.pc s.core.currp = .outside)
    (other : s.core.currp ≠ idle) :
      Step idle s (s.chMsgSend tp msg)
  | wait {s : Messages T} (out : s.pc s.core.currp = .outside) (other : s.core.currp ≠ idle) :
    Step idle s s.chMsgWait.2
  | release {s : Messages T} (tp : T) (msg : Int) (out : s.pc s.core.currp = .outside)
      (obtained : s.Obtained s.core.currp tp) : Step idle s (s.chMsgRelease tp msg)
  | sendReturns {s : Messages T} (inside : s.pc s.core.currp = .sending) : Step idle s s.sendReturns.2
  | receive {s : Messages T} (inside : s.pc s.core.currp = .receiving) : Step idle s s.receive.2
  | other {s s' : Messages T} (out : s.pc s.core.currp = .outside) (step : Other idle s s') :
    Step idle s s'

/-- No thread has to do with messages. -/
structure Start (idle : T) (s : Messages T) : Prop where
  core : s.core.Sound idle
  asleep : ∀ t, s.core.waiting t = none ∨ s.core.waiting t = some .OTHER
  queue : ∀ t, s.p_msgqueue t = []
  pc : ∀ t, s.pc t = .outside
  log : s.log = []

def Reachable (idle : T) (s : Messages T) : Prop :=
  ∃ s₀, Start idle s₀ ∧ Relation.ReflTransGen (Step idle) s₀ s

end Steps

/-! ### The invariant -/

/-- What the phase of a sender says about its thread. -/
def Sender (s : Messages T) (t : T) : Phase T Int Int → Prop
  | .idle => s.pc t ≠ .sending ∧ s.core.waiting t ≠ some .SNDMSGQ ∧ s.core.waiting t ≠ some .SNDMSG
  | .queued _ msg => s.pc t = .sending ∧ s.core.waiting t = some .SNDMSGQ ∧ s.p_msg t = msg
  | .held _ msg => s.pc t = .sending ∧ s.core.waiting t = some .SNDMSG ∧ s.p_msg t = msg
  | .answered answer => s.pc t = .sending ∧ s.core.waiting t = none ∧ s.core.rdymsg t = answer

/-- A receiver sleeps only if nothing is pending, and has something when it runs again. -/
structure Receiver (s : Messages T) (t : T) : Prop where
  asleep : s.core.waiting t = some .WTMSG → s.pc t = .receiving ∧ s.p_msgqueue t = []
  awake : s.pc t = .receiving →
      s.core.waiting t = some .WTMSG ∨ (s.core.waiting t = none ∧ s.p_msgqueue t ≠ [])

structure Inv (idle : T) (s : Messages T) (p : Post T T Int Int) : Prop where
  core : s.core.Sound idle
  queue : s.p_msgqueue = p.queue
  queued : Queued p.phase p.queue
  sender : ∀ t, Sender s t (p.phase t)
  receiver : ∀ t, Receiver s t

section Proofs

variable {idle : T} {s s' : Messages T} {p : Post T T Int Int}

theorem Sender.congr {t : T} {phase : Phase T Int Int} (sender : Sender s t phase)
    (pc : s'.pc t = s.pc t) (waiting : s'.core.waiting t = s.core.waiting t)
    (p_msg : s'.p_msg t = s.p_msg t) (rdymsg : s'.core.rdymsg t = s.core.rdymsg t) :
    Sender s' t phase := by
  cases phase with
  | idle =>
      rw [Sender, pc, waiting]
      exact sender
  | queued r msg =>
      rw [Sender, pc, waiting, p_msg]
      exact sender
  | held r msg =>
      rw [Sender, pc, waiting, p_msg]
      exact sender
  | answered answer =>
      rw [Sender, pc, waiting, rdymsg]
      exact sender

theorem Receiver.congr {t : T} (receiver : Receiver s t) (pc : s'.pc t = s.pc t)
    (waiting : s'.core.waiting t = s.core.waiting t) (queue : s'.p_msgqueue t = s.p_msgqueue t) :
    Receiver s' t := by
  constructor
  · rw [pc, waiting, queue]
    exact receiver.asleep
  · rw [pc, waiting, queue]
    exact receiver.awake

/-- A thread that is awake and not in `chMsgSend`. -/
theorem sender_idle {t : T} (out : s.pc t ≠ .sending) (awake : s.core.waiting t = none) :
    Sender s t .idle := by
  refine ⟨out, ?_, ?_⟩
  · rw [awake]
    simp
  · rw [awake]
    simp

/-- A thread that is not in `chMsgWait`. -/
theorem receiver_outside {t : T} (out : s.pc t ≠ .receiving)
    (other : s.core.waiting t ≠ some .WTMSG) : Receiver s t :=
  ⟨fun asleep => absurd asleep other, fun inside => absurd inside out⟩

/-- A thread that is not in `chMsgSend` has no message under way. -/
theorem Sender.phase_idle {t : T} {phase : Phase T Int Int} (sender : Sender s t phase)
    (out : s.pc t ≠ .sending) :
    phase = .idle := by
  cases phase with
  | idle => rfl
  | queued r msg => exact absurd sender.1 out
  | held r msg => exact absurd sender.1 out
  | answered answer => exact absurd sender.1 out

variable [DecidableEq T]

omit [DecidableEq T] in
theorem Inv.sending_iff (inv : Inv idle s p) (t : T) : s.pc t = .sending ↔ p.phase t ≠ .idle := by
  constructor
  · intro inside phase
    have sender := inv.sender t
    rw [phase] at sender
    exact sender.1 inside
  · intro phase
    by_contra out
    exact phase ((inv.sender t).phase_idle out)

omit [DecidableEq T] in
theorem Inv.queued_asleep (inv : Inv idle s p) (t r : T) (msg : Int)
    (phase : p.phase t = .queued r msg) :
    s.core.p_state t = .WAIT .SNDMSGQ ∧ s.p_msg t = msg := by
  have sender := inv.sender t
  rw [phase] at sender
  exact ⟨Core.waiting_eq_some.mp sender.2.1, sender.2.2⟩

omit [DecidableEq T] in
theorem Inv.held_asleep (inv : Inv idle s p) (t r : T) (msg : Int)
    (phase : p.phase t = .held r msg) :
    s.core.p_state t = .WAIT .SNDMSG ∧ s.p_msg t = msg := by
  have sender := inv.sender t
  rw [phase] at sender
  exact ⟨Core.waiting_eq_some.mp sender.2.1, sender.2.2⟩

omit [DecidableEq T] in
theorem Inv.answered_awake (inv : Inv idle s p) (t : T) (answer : Int)
    (phase : p.phase t = .answered answer) :
    s.core.waiting t = none := by
  have sender := inv.sender t
  rw [phase] at sender
  exact sender.2.1

omit [DecidableEq T] in
/-- A receiver that runs again in `chMsgWait` has a message. -/
theorem Inv.pending (inv : Inv idle s p) (inside : s.pc s.core.currp = .receiving) :
    s.p_msgqueue s.core.currp ≠ [] := by
  rcases (inv.receiver s.core.currp).awake inside with asleep | ⟨-, pending⟩
  · rw [inv.core.inv.waiting_currp] at asleep
    cases asleep
  · exact pending

/-! ### Sending -/

/-- The receiver is woken if it waits for messages. -/
theorem sound_wakeReceiver {c : Core T MsgWait} (sound : c.Sound idle) (tp : T) :
    let c' := if c.p_state tp = .WAIT .WTMSG then c.chSchReadyI tp else c
    c'.Sound idle ∧ c'.currp = c.currp ∧ c'.rdymsg = c.rdymsg ∧ c'.waiting tp ≠ some .WTMSG ∧
      ∀ t, c'.waiting t = c.waiting t ∨
        t = tp ∧ c.waiting t = some .WTMSG ∧ c'.waiting t = none := by
  dsimp only
  split_ifs with waits
  · have asleep : c.waiting tp = some .WTMSG := Core.waiting_eq_some.mpr waits
    refine ⟨sound.of_inv (sound.inv.chSchReadyI (by simp [asleep])) rfl, rfl, rfl, ?_, ?_⟩
    · simp
    · intro t
      rw [Core.waiting_chSchReadyI]
      by_cases same : t = tp
      · subst same
        exact .inr ⟨rfl, asleep, Function.update_self _ _ _⟩
      · exact .inl (Function.update_of_ne same _ _)
  · refine ⟨sound, rfl, rfl, ?_, fun t => .inl rfl⟩
    rw [ne_eq, Core.waiting_eq_some]
    exact waits

/-- The threads after a call of `chMsgSend`: a receiver that waited is awake, and the sender is
asleep. -/
structure Sent (idle : T) (s : Messages T) (tp : T) (c : Core T MsgWait) : Prop where
  sound : c.Sound idle
  rdymsg : c.rdymsg = s.core.rdymsg
  asleep : c.waiting s.core.currp = some .SNDMSGQ
  awake : c.waiting tp ≠ some .WTMSG
  others : ∀ t, t ≠ s.core.currp → c.waiting t = s.core.waiting t ∨
    t = tp ∧ s.core.waiting t = some .WTMSG ∧ c.waiting t = none

theorem Inv.sent (inv : Inv idle s p) (other : s.core.currp ≠ idle) (tp : T) (msg : Int) :
    Sent idle s tp (s.chMsgSend tp msg).core := by
  obtain ⟨sound, currp, rdymsg, awake, waiting⟩ := sound_wakeReceiver inv.core tp
  have sleeps := sound.goSleep (by rw [currp]; exact other) MsgWait.SNDMSGQ
  have after : (s.chMsgSend tp msg).core.waiting = _ := sleeps.waiting
  rw [currp] at after
  have asleep : (s.chMsgSend tp msg).core.waiting s.core.currp = some .SNDMSGQ := by
    rw [after, Function.update_self]
  refine ⟨sleeps.sound, sleeps.rdymsg.trans rdymsg, asleep, ?_, fun t differs => ?_⟩
  · by_cases same : tp = s.core.currp
    · subst same
      rw [asleep]
      simp
    · rw [after, Function.update_of_ne same]
      exact awake
  · rw [after, Function.update_of_ne differs]
    exact waiting t

theorem Sent.sender {tp : T} {msg : Int} (sent : Sent idle s tp (s.chMsgSend tp msg).core)
    (inv : Inv idle s p) (t : T) :
    Sender (s.chMsgSend tp msg) t (Function.update p.phase s.core.currp (.queued tp msg) t) := by
  by_cases same : t = s.core.currp
  · rw [same, Function.update_self]
    exact ⟨Function.update_self _ _ _, sent.asleep, Function.update_self _ _ _⟩
  · rw [Function.update_of_ne same]
    rcases sent.others t same with eq | ⟨rfl, asleep, woken⟩
    · apply (inv.sender t).congr
      · exact Function.update_of_ne same _ _
      · exact eq
      · exact Function.update_of_ne same _ _
      · exact congrFun sent.rdymsg t
    · have receiving := ((inv.receiver t).asleep asleep).1
      rw [(inv.sender t).phase_idle (by simp [receiving])]
      apply sender_idle _ woken
      change Function.update s.pc s.core.currp _ t ≠ _
      rw [Function.update_of_ne same, receiving]
      simp

theorem Sent.receiver {tp : T} {msg : Int} (sent : Sent idle s tp (s.chMsgSend tp msg).core)
    (inv : Inv idle s p) (t : T) : Receiver (s.chMsgSend tp msg) t := by
  by_cases same : t = s.core.currp
  · subst same
    apply receiver_outside
    · change Function.update s.pc s.core.currp _ s.core.currp ≠ _
      rw [Function.update_self]
      simp
    · rw [sent.asleep]
      simp
  · have pc : (s.chMsgSend tp msg).pc t = s.pc t := Function.update_of_ne same _ _
    by_cases target : t = tp
    · subst target
      have queue : (s.chMsgSend t msg).p_msgqueue t = s.p_msgqueue t ++ [s.core.currp] :=
        Function.update_self _ _ _
      constructor
      · exact fun asleep => absurd asleep sent.awake
      · rw [pc, queue]
        intro receiving
        right
        refine ⟨?_, by simp⟩
        rcases sent.others t same with eq | ⟨-, -, woken⟩
        · rw [eq]
          rcases (inv.receiver t).awake receiving with asleep | ⟨none, -⟩
          · exact absurd (eq.trans asleep) sent.awake
          · exact none
        · exact woken
    · apply (inv.receiver t).congr pc
      · rcases sent.others t same with eq | ⟨eq, -, -⟩
        · exact eq
        · exact absurd eq target
      · exact Function.update_of_ne target _ _

theorem Inv.send (inv : Inv idle s p) (out : s.pc s.core.currp = .outside)
    (other : s.core.currp ≠ idle) (tp : T) (msg : Int) :
    ∃ p', p.next (.sent s.core.currp tp msg) = some p' ∧ Inv idle (s.chMsgSend tp msg) p' := by
  have idle_phase := (inv.sender s.core.currp).phase_idle (by simp [out])
  have sent := inv.sent other tp msg
  refine ⟨_, if_pos idle_phase, ?_⟩
  refine
    { core := sent.sound
      queue := ?queue
      queued := inv.queued.sent idle_phase tp msg
      sender := sent.sender inv
      receiver := sent.receiver inv }
  change Function.update s.p_msgqueue tp (s.p_msgqueue tp ++ [s.core.currp]) = _
  rw [inv.queue]

omit [DecidableEq T] in
/-- A sender that runs has the answer. -/
theorem Inv.answered (inv : Inv idle s p) (inside : s.pc s.core.currp = .sending) :
    p.phase s.core.currp = .answered (s.core.rdymsg s.core.currp) := by
  have awake := inv.core.inv.waiting_currp
  have sender := inv.sender s.core.currp
  cases phase : p.phase s.core.currp with
  | idle =>
      rw [phase] at sender
      exact absurd inside sender.1
  | queued r msg =>
      rw [phase] at sender
      rw [sender.2.1] at awake
      cases awake
  | held r msg =>
      rw [phase] at sender
      rw [sender.2.1] at awake
      cases awake
  | answered answer =>
      rw [phase] at sender
      rw [sender.2.2]

theorem Inv.sendReturns (inv : Inv idle s p) (inside : s.pc s.core.currp = .sending) :
    ∃ p', p.next (.returned s.core.currp (s.core.rdymsg s.core.currp)) = some p' ∧
      Inv idle s.sendReturns.2 p' := by
  have awake := inv.core.inv.waiting_currp
  have answered := inv.answered inside
  refine ⟨_, if_pos answered, inv.core, inv.queue, ?_, ?_, ?_⟩
  · exact inv.queued.update (inv.queued.off (by simp [answered])) (by simp)
  · intro t
    change Sender _ t (Function.update p.phase s.core.currp _ t)
    by_cases same : t = s.core.currp
    · rw [same, Function.update_self]
      refine sender_idle ?_ awake
      change Function.update s.pc s.core.currp _ s.core.currp ≠ _
      rw [Function.update_self]
      simp
    · rw [Function.update_of_ne same]
      exact (inv.sender t).congr (Function.update_of_ne same _ _) rfl rfl rfl
  · intro t
    by_cases same : t = s.core.currp
    · subst same
      apply receiver_outside
      · change Function.update s.pc s.core.currp _ s.core.currp ≠ _
        rw [Function.update_self]
        simp
      · change s.core.waiting s.core.currp ≠ _
        simp [awake]
    · exact (inv.receiver t).congr (Function.update_of_ne same _ _) rfl rfl

/-! ### Receiving -/

section Receive

variable {tp : T} {rest : List T}

theorem receive_state (first : s.p_msgqueue s.core.currp = tp :: rest) :
    s.receive.2 = { s with
      p_msgqueue := Function.update s.p_msgqueue s.core.currp rest
      core := s.core.setState tp (.WAIT .SNDMSG)
      pc := Function.update s.pc s.core.currp .outside
      log := s.log ++ [.obtained s.core.currp tp (s.p_msg tp)] } := by
  simp only [Messages.receive, first]

omit [DecidableEq T] in
/-- The first sender of a queue sleeps in `chMsgSend`. -/
theorem Inv.first_queued (inv : Inv idle s p) (first : s.p_msgqueue s.core.currp = tp :: rest) :
    p.phase tp = .queued s.core.currp (s.p_msg tp) ∧ s.pc tp = .sending ∧
      s.core.waiting tp = some .SNDMSGQ := by
  have mem : tp ∈ p.queue s.core.currp := by
    rw [← inv.queue, first]
    exact List.mem_cons_self
  obtain ⟨msg, queued⟩ := (inv.queued.mem s.core.currp tp).mp mem
  have sender := inv.sender tp
  rw [queued] at sender
  obtain ⟨inside, asleep, rfl⟩ := sender
  exact ⟨queued, inside, asleep⟩

theorem Inv.receive_waiting (inv : Inv idle s p) (first : s.p_msgqueue s.core.currp = tp :: rest) :
    s.receive.2.core.waiting = Function.update s.core.waiting tp (some .SNDMSG) ∧
      s.core.currp ≠ tp := by
  obtain ⟨-, -, asleep⟩ := inv.first_queued first
  rw [receive_state first]
  exact ⟨Core.waiting_setState _ _ _, inv.core.asleep_ne (by simp [asleep])⟩

theorem Inv.receive_sender (inv : Inv idle s p) (out : s.pc s.core.currp ≠ .sending)
    (first : s.p_msgqueue s.core.currp = tp :: rest) (t : T) :
    Sender s.receive.2 t (Function.update p.phase tp (.held s.core.currp (s.p_msg tp)) t) := by
  obtain ⟨-, inside, -⟩ := inv.first_queued first
  obtain ⟨waiting, differs⟩ := inv.receive_waiting first
  rw [receive_state first] at waiting ⊢
  by_cases same : t = tp
  · subst same
    rw [Function.update_self]
    refine ⟨?_, ?_, rfl⟩
    · exact (Function.update_of_ne differs.symm _ _).trans inside
    · rw [waiting, Function.update_self]
  · have still : (s.core.setState tp (.WAIT .SNDMSG)).waiting t = s.core.waiting t :=
      (congrFun waiting t).trans (Function.update_of_ne same _ _)
    rw [Function.update_of_ne same]
    by_cases current : t = s.core.currp
    · subst current
      rw [(inv.sender _).phase_idle out]
      refine sender_idle ?_ (still.trans inv.core.inv.waiting_currp)
      change Function.update s.pc s.core.currp _ s.core.currp ≠ _
      rw [Function.update_self]
      simp
    · exact (inv.sender t).congr (Function.update_of_ne current _ _) still rfl rfl

theorem Inv.receive_receiver (inv : Inv idle s p) (first : s.p_msgqueue s.core.currp = tp :: rest)
    (t : T) : Receiver s.receive.2 t := by
  obtain ⟨-, inside, -⟩ := inv.first_queued first
  obtain ⟨waiting, differs⟩ := inv.receive_waiting first
  rw [receive_state first] at waiting ⊢
  by_cases current : t = s.core.currp
  · subst current
    apply receiver_outside
    · change Function.update s.pc s.core.currp _ s.core.currp ≠ _
      rw [Function.update_self]
      simp
    · rw [waiting, Function.update_of_ne differs, inv.core.inv.waiting_currp]
      simp
  · have pc : Function.update s.pc s.core.currp .outside t = s.pc t :=
      Function.update_of_ne current _ _
    by_cases same : t = tp
    · subst same
      apply receiver_outside
      · change Function.update s.pc _ _ t ≠ _
        rw [pc, inside]
        simp
      · rw [waiting, Function.update_self]
        simp
    · apply (inv.receiver t).congr pc _ (Function.update_of_ne current _ _)
      exact (congrFun waiting t).trans (Function.update_of_ne same _ _)

theorem Inv.receive (inv : Inv idle s p) (out : s.pc s.core.currp ≠ .sending)
    (first : s.p_msgqueue s.core.currp = tp :: rest) :
    ∃ p', p.next (.obtained s.core.currp tp (s.p_msg tp)) = some p' ∧
      s.receive.2.log = s.log ++ [.obtained s.core.currp tp (s.p_msg tp)] ∧
        Inv idle s.receive.2 p' := by
  obtain ⟨queued, -, asleep⟩ := inv.first_queued first
  have first' : p.queue s.core.currp = tp :: rest := by
    rw [← inv.queue]
    exact first
  have sender := inv.receive_sender out first
  have receiver := inv.receive_receiver first
  refine ⟨_, if_pos ⟨by rw [first']; rfl, queued⟩, by rw [receive_state first], ?_⟩
  rw [first']
  refine ⟨?_, ?_, inv.queued.obtained first' queued, sender, receiver⟩
  · rw [receive_state first]
    exact inv.core.setWait (by simp [asleep]) _
  · rw [receive_state first]
    change Function.update s.p_msgqueue _ _ = _
    rw [inv.queue]
    rfl

end Receive

theorem Inv.wait (inv : Inv idle s p) (out : s.pc s.core.currp = .outside)
    (other : s.core.currp ≠ idle) (nothing : s.p_msgqueue s.core.currp = []) :
    Inv idle { s with
      core := s.core.chSchGoSleepS .WTMSG
      pc := Function.update s.pc s.core.currp .receiving } p := by
  have sleeps := inv.core.goSleep other MsgWait.WTMSG
  have waiting_self : (s.core.chSchGoSleepS .WTMSG).waiting s.core.currp = some .WTMSG := by
    rw [sleeps.waiting, Function.update_self]
  have waiting_other : ∀ t, t ≠ s.core.currp →
      (s.core.chSchGoSleepS .WTMSG).waiting t = s.core.waiting t := by
    intro t differs
    rw [sleeps.waiting, Function.update_of_ne differs]
  refine ⟨sleeps.sound, inv.queue, inv.queued, ?_, ?_⟩
  · intro t
    by_cases same : t = s.core.currp
    · subst same
      rw [(inv.sender _).phase_idle (by simp [out])]
      refine ⟨?_, ?_, ?_⟩
      · change Function.update s.pc s.core.currp _ s.core.currp ≠ _
        rw [Function.update_self]
        simp
      · simp [waiting_self]
      · simp [waiting_self]
    · exact (inv.sender t).congr (Function.update_of_ne same _ _) (waiting_other t same) rfl
        (congrFun sleeps.rdymsg t)
  · intro t
    by_cases same : t = s.core.currp
    · subst same
      exact ⟨fun _ => ⟨Function.update_self _ _ _, nothing⟩, fun _ => .inl waiting_self⟩
    · exact (inv.receiver t).congr (Function.update_of_ne same _ _) (waiting_other t same) rfl

theorem Inv.release (inv : Inv idle s p) {tp : T} {msg : Int}
    (held : p.phase tp = .held s.core.currp msg) (answer : Int) :
    ∃ p', p.next (.released s.core.currp tp answer) = some p' ∧
      Inv idle (s.chMsgRelease tp answer) p' := by
  have sender := inv.sender tp
  rw [held] at sender
  have asleep : s.core.waiting tp ≠ none := by simp [sender.2.1]
  have wakes := inv.core.wakeup asleep answer
  have waiting_self : (s.core.chSchWakeupS tp answer).waiting tp = none := by
    rw [wakes.waiting, Function.update_self]
  have waiting_other : ∀ t, t ≠ tp →
      (s.core.chSchWakeupS tp answer).waiting t = s.core.waiting t := by
    intro t differs
    rw [wakes.waiting, Function.update_of_ne differs]
  refine ⟨⟨Function.update p.phase tp (.answered answer), p.queue⟩, by simp [Post.next, held], ?_⟩
  refine ⟨wakes.sound, inv.queue, ?_, ?_, ?_⟩
  · exact inv.queued.update (inv.queued.off (by simp [held])) (by simp)
  · intro t
    change Sender _ t (Function.update p.phase tp _ t)
    by_cases same : t = tp
    · subst same
      rw [Function.update_self]
      refine ⟨sender.1, waiting_self, ?_⟩
      change (s.core.chSchWakeupS t answer).rdymsg t = _
      rw [wakes.rdymsg, Function.update_self]
    · rw [Function.update_of_ne same]
      have rdymsg : (s.core.chSchWakeupS tp answer).rdymsg t = s.core.rdymsg t := by
        rw [wakes.rdymsg, Function.update_of_ne same]
      exact (inv.sender t).congr rfl (waiting_other t same) rfl rdymsg
  · intro t
    by_cases same : t = tp
    · subst same
      apply receiver_outside
      · change s.pc t ≠ _
        simp [sender.1]
      · change (s.core.chSchWakeupS t answer).waiting t ≠ _
        simp [waiting_self]
    · exact (inv.receiver t).congr rfl (waiting_other t same) rfl

/-! ### Runs -/

omit [DecidableEq T] in
/-- Only the kernel changes, and no thread that has to do with messages wakes or falls asleep. -/
theorem Inv.core_congr (inv : Inv idle s p) {c : Core T MsgWait} (sound : c.Sound idle)
    (apart : ∀ t, (c.waiting t = s.core.waiting t ∧ c.rdymsg t = s.core.rdymsg t) ∨
      (s.pc t = .outside ∧ (c.waiting t = none ∨ c.waiting t = some .OTHER))) :
        Inv idle { s with core := c } p := by
  refine ⟨sound, inv.queue, inv.queued, ?_, ?_⟩
  · intro t
    rcases apart t with ⟨waiting, rdymsg⟩ | ⟨out, waiting⟩
    · exact (inv.sender t).congr rfl waiting rfl rdymsg
    · rw [(inv.sender t).phase_idle (by simp [out])]
      refine ⟨by simp [out], ?_, ?_⟩
      · rcases waiting with eq | eq <;> simp [eq]
      · rcases waiting with eq | eq <;> simp [eq]
  · intro t
    rcases apart t with ⟨waiting, -⟩ | ⟨out, waiting⟩
    · exact (inv.receiver t).congr rfl waiting rfl
    · apply receiver_outside
      · simp [out]
      · rcases waiting with eq | eq <;> simp [eq]

omit [DecidableEq T] in
/-- A thread that waits for something else is outside. -/
theorem Inv.outside (inv : Inv idle s p) {t : T} (waits : s.core.waiting t = some .OTHER) :
    s.pc t = .outside := by
  cases pc : s.pc t with
  | outside => rfl
  | sending =>
      have sender := inv.sender t
      cases phase : p.phase t with
      | idle =>
          rw [phase] at sender
          exact absurd pc sender.1
      | queued r msg =>
          rw [phase] at sender
          rw [sender.2.1] at waits
          cases waits
      | held r msg =>
          rw [phase] at sender
          rw [sender.2.1] at waits
          cases waits
      | answered answer =>
          rw [phase] at sender
          rw [sender.2.1] at waits
          cases waits
  | receiving =>
      rcases (inv.receiver t).awake pc with eq | ⟨eq, -⟩
      · rw [eq] at waits
        cases waits
      · rw [eq] at waits
        cases waits

theorem Inv.wakes (inv : Inv idle s p) {c : Core T MsgWait} {tp : T} {msg : Int}
    (waits : s.core.waiting tp = some .OTHER) (wakes : s.core.Wakes idle tp msg c) :
    Inv idle { s with core := c } p := by
  apply inv.core_congr wakes.sound
  intro t
  by_cases same : t = tp
  · subst same
    right
    refine ⟨inv.outside waits, .inl ?_⟩
    rw [wakes.waiting, Function.update_self]
  · left
    rw [wakes.waiting, wakes.rdymsg, Function.update_of_ne same, Function.update_of_ne same]
    exact ⟨rfl, rfl⟩

theorem Inv.quiet (inv : Inv idle s p) {c : Core T MsgWait} (quiet : s.core.Quiet idle c) :
    Inv idle { s with core := c } p := by
  apply inv.core_congr quiet.sound
  intro t
  left
  rw [quiet.waiting, quiet.rdymsg]
  exact ⟨rfl, rfl⟩

theorem Inv.other (inv : Inv idle s p) (out : s.pc s.core.currp = .outside) (step : Other idle s s') :
    Inv idle s' p ∧ s'.log = s.log := by
  cases step with
  | ready tp msg waits => exact ⟨inv.wakes waits (inv.core.setMsg_ready (by simp [waits]) msg), rfl⟩
  | tick => exact ⟨inv.quiet inv.core.tick, rfl⟩
  | sleep other =>
      have sleeps := inv.core.goSleep other MsgWait.OTHER
      refine ⟨inv.core_congr sleeps.sound ?_, rfl⟩
      intro t
      by_cases same : t = s.core.currp
      · subst same
        right
        refine ⟨out, .inr ?_⟩
        rw [sleeps.waiting, Function.update_self]
      · left
        rw [sleeps.waiting, sleeps.rdymsg, Function.update_of_ne same]
        exact ⟨rfl, rfl⟩
  | wakeup tp msg waits => exact ⟨inv.wakes waits (inv.core.wakeup (by simp [waits]) msg), rfl⟩
  | switch switch => exact ⟨inv.quiet (inv.core.switch switch), rfl⟩

omit [DecidableEq T] in
theorem Start.inv (start : Start idle s) : Inv idle s .start := by
  refine ⟨start.core, funext start.queue, queued_start, ?_, ?_⟩
  · intro t
    refine ⟨by simp [start.pc], ?_, ?_⟩
    · rcases start.asleep t with eq | eq <;> simp [eq]
    · rcases start.asleep t with eq | eq <;> simp [eq]
  · intro t
    constructor
    · intro asleep
      rcases start.asleep t with eq | eq <;> simp [eq] at asleep
    · simp [start.pc]

/-- The history is one of calls that are answered, and the threads are where it says. -/
def Tracked (idle : T) (s : Messages T) : Prop := ∃ p, replay s.log = some p ∧ Inv idle s p

theorem Tracked.step (tracked : Tracked idle s) (step : Step idle s s') : Tracked idle s' := by
  obtain ⟨p, history, inv⟩ := tracked
  -- one event more
  have extend : ∀ {e p'}, p.next e = some p' → replay (s.log ++ [e]) = some p' := by
    intro e p' next
    rw [replay_concat, history]
    exact next
  have obtain_next : s.pc s.core.currp ≠ .sending → s.p_msgqueue s.core.currp ≠ [] →
      Tracked idle s.receive.2 := by
    intro out some_queue
    obtain ⟨tp, rest, first⟩ := List.exists_cons_of_ne_nil some_queue
    obtain ⟨p', next, log, inv'⟩ := inv.receive out first
    exact ⟨p', by rw [log]; exact extend next, inv'⟩
  cases step with
  | send tp msg out other =>
      obtain ⟨p', next, inv'⟩ := inv.send out other tp msg
      exact ⟨p', extend next, inv'⟩
  | wait out other =>
      unfold chMsgWait
      cases queue : s.p_msgqueue s.core.currp with
      | nil =>
          have none : s.chMsgIsPendingI s.core.currp = false := by simp [chMsgIsPendingI, queue]
          rw [none, if_neg Bool.false_ne_true]
          exact ⟨p, history, inv.wait out other queue⟩
      | cons tp rest =>
          have pending : s.chMsgIsPendingI s.core.currp = true := by simp [chMsgIsPendingI, queue]
          rw [if_pos pending]
          exact obtain_next (by simp [out]) (by simp [queue])
  | release tp answer out obtained =>
      obtain ⟨p₀, msg, history₀, held⟩ := obtained
      rw [history] at history₀
      cases history₀
      obtain ⟨p', next, inv'⟩ := inv.release held answer
      exact ⟨p', extend next, inv'⟩
  | sendReturns inside =>
      obtain ⟨p', next, inv'⟩ := inv.sendReturns inside
      exact ⟨p', extend next, inv'⟩
  | receive inside =>
      exact obtain_next (by simp [inside]) (inv.pending inside)
  | other out step =>
      obtain ⟨inv', log⟩ := inv.other out step
      exact ⟨p, by rw [log]; exact history, inv'⟩

theorem Reachable.tracked (reachable : Reachable idle s) : Tracked idle s := by
  obtain ⟨s₀, start, run⟩ := reachable
  induction run with
  | refl => exact ⟨.start, by rw [start.log]; rfl, start.inv⟩
  | tail _ step ih => exact ih.step step

/-! ### What the calls do -/

/-- A call of `chMsgSend` puts the message into the queue of `tp`, wakes `tp` if it waits for
messages, and sleeps. -/
structure Sends (s s' : Messages T) (tp : T) (msg : Int) : Prop where
  log : s'.log = s.log ++ [.sent s.core.currp tp msg]
  message : s'.p_msg s.core.currp = msg
  queued : s'.p_msgqueue tp = s.p_msgqueue tp ++ [s.core.currp]
  asleep : s'.core.p_state s.core.currp = .WAIT .SNDMSGQ
  inside : s'.pc s.core.currp = .sending
  woken : s'.core.p_state tp ≠ .WAIT .WTMSG

/-- `chMsgWait` returns `tp`, the first of the queue; `tp` goes on sleeping. -/
structure Obtains (s s' : Messages T) (tp : T) : Prop where
  first : s.p_msgqueue s.core.currp = tp :: s'.p_msgqueue s.core.currp
  log : s'.log = s.log ++ [.obtained s.core.currp tp (s.p_msg tp)]
  outside : s'.pc s.core.currp = .outside
  asleep : s'.core.p_state tp = .WAIT .SNDMSG

/-- `chMsgWait` finds nothing pending, and sleeps. -/
structure Blocks (s s' : Messages T) : Prop where
  nothing : s.p_msgqueue s.core.currp = []
  log : s'.log = s.log
  asleep : s'.core.p_state s.core.currp = .WAIT .WTMSG
  inside : s'.pc s.core.currp = .receiving

/-- `chMsgRelease` wakes the sender with the answer. -/
structure Releases (s s' : Messages T) (tp : T) (msg : Int) : Prop where
  log : s'.log = s.log ++ [.released s.core.currp tp msg]
  woken : s'.core.waiting tp = none
  answer : s'.core.rdymsg tp = msg

/-- `chMsgSend` returns the answer of the release. -/
structure Returns (s s' : Messages T) (answer : Int) : Prop where
  released : ∃ p, replay s.log = some p ∧ p.phase s.core.currp = .answered answer
  log : s'.log = s.log ++ [.returned s.core.currp answer]
  outside : s'.pc s.core.currp = .outside

theorem Inv.sends (inv : Inv idle s p) (other : s.core.currp ≠ idle) (tp : T) (msg : Int) :
    Sends s (s.chMsgSend tp msg) tp msg := by
  have sent := inv.sent other tp msg
  refine ⟨rfl, Function.update_self _ _ _, Function.update_self _ _ _,
    Core.waiting_eq_some.mp sent.asleep, Function.update_self _ _ _, ?_⟩
  rw [ne_eq, ← Core.waiting_eq_some]
  exact sent.awake

theorem receive_eq {tp : T} {rest : List T}
    (first : s.p_msgqueue s.core.currp = tp :: rest) :
    s.receive.1 = some tp ∧ Obtains s s.receive.2 tp := by
  have asleep : (s.core.setState tp (.WAIT .SNDMSG)).p_state tp = .WAIT .SNDMSG :=
    Function.update_self _ _ _
  have left : s.p_msgqueue s.core.currp =
      tp :: Function.update s.p_msgqueue s.core.currp rest s.core.currp := by
    rw [Function.update_self]
    exact first
  unfold receive
  rw [first]
  exact ⟨rfl, left, rfl, Function.update_self _ _ _, asleep⟩

theorem Inv.blocks (inv : Inv idle s p) (other : s.core.currp ≠ idle)
    (nothing : s.p_msgqueue s.core.currp = []) :
    s.chMsgWait.1 = none ∧ Blocks s s.chMsgWait.2 := by
  have none : s.chMsgIsPendingI s.core.currp = false := by simp [chMsgIsPendingI, nothing]
  have sleeps := inv.core.goSleep other MsgWait.WTMSG
  have asleep : (s.core.chSchGoSleepS .WTMSG).waiting s.core.currp = some .WTMSG := by
    rw [sleeps.waiting, Function.update_self]
  unfold chMsgWait
  rw [none, if_neg Bool.false_ne_true]
  exact ⟨rfl, nothing, rfl, Core.waiting_eq_some.mp asleep, Function.update_self _ _ _⟩

theorem Inv.releases (inv : Inv idle s p) (history : replay s.log = some p) {tp : T}
    (obtained : s.Obtained s.core.currp tp) (answer : Int) :
    Releases s (s.chMsgRelease tp answer) tp answer := by
  obtain ⟨p₀, msg, history₀, held⟩ := obtained
  rw [history] at history₀
  cases history₀
  have sender := inv.sender tp
  rw [held] at sender
  have asleep : s.core.waiting tp ≠ none := by simp [sender.2.1]
  have wakes := inv.core.wakeup asleep answer
  refine ⟨rfl, ?_, ?_⟩
  · change (s.core.chSchWakeupS tp answer).waiting tp = _
    rw [wakes.waiting, Function.update_self]
  · change (s.core.chSchWakeupS tp answer).rdymsg tp = _
    rw [wakes.rdymsg, Function.update_self]

/-- The messages of a run. The history is one in which receivers obtain the messages of their
queues in the order of sending, each once and as it was sent, and in which a call returns
only after its message has been released, with the answer of that release. A thread is in
`chMsgSend` while its message is under way; it is asleep and its message unchanged until the
release, and a receiver does not sleep while a message is pending. The calls do and return
what the history says. -/
structure Synchronous (idle : T) (s : Messages T) : Prop where
  history : ∃ p, replay s.log = some p ∧ (∀ r, s.p_msgqueue r = p.queue r) ∧
    (∀ t, s.pc t = .sending ↔ p.phase t ≠ .idle) ∧
    (∀ t r msg, p.phase t = .queued r msg → s.core.p_state t = .WAIT .SNDMSGQ ∧ s.p_msg t = msg) ∧
    (∀ t r msg, p.phase t = .held r msg → s.core.p_state t = .WAIT .SNDMSG ∧ s.p_msg t = msg) ∧
    (∀ t answer, p.phase t = .answered answer → s.core.waiting t = none)
  receiver : ∀ r, s.core.p_state r = .WAIT .WTMSG → s.p_msgqueue r = []
  sends : s.core.currp ≠ idle → ∀ tp msg, Sends s (s.chMsgSend tp msg) tp msg
  waits : s.p_msgqueue s.core.currp ≠ [] →
    ∃ tp, s.chMsgWait.1 = some tp ∧ Obtains s s.chMsgWait.2 tp
  blocks : s.core.currp ≠ idle → s.p_msgqueue s.core.currp = [] →
    s.chMsgWait.1 = none ∧ Blocks s s.chMsgWait.2
  receives : s.pc s.core.currp = .receiving → ∃ tp, s.receive.1 = some tp ∧ Obtains s s.receive.2 tp
  releases : ∀ tp msg, s.Obtained s.core.currp tp → Releases s (s.chMsgRelease tp msg) tp msg
  returns : s.pc s.core.currp = .sending → Returns s s.sendReturns.2 s.sendReturns.1

theorem messages_synchronous (idle : T) (s : Messages T) (reachable : Reachable idle s) :
    Synchronous idle s := by
  obtain ⟨p, history, inv⟩ := reachable.tracked
  constructor
  · exact ⟨p, history, congrFun inv.queue, inv.sending_iff, inv.queued_asleep, inv.held_asleep,
      inv.answered_awake⟩
  · intro r waits
    exact ((inv.receiver r).asleep (Core.waiting_eq_some.mpr waits)).2
  · exact fun other => inv.sends other
  · intro pending
    obtain ⟨tp, rest, first⟩ := List.exists_cons_of_ne_nil pending
    have test : s.chMsgIsPendingI s.core.currp = true := by simp [chMsgIsPendingI, first]
    unfold chMsgWait
    rw [if_pos test]
    exact ⟨tp, receive_eq first⟩
  · exact fun other => inv.blocks other
  · intro inside
    obtain ⟨tp, rest, first⟩ := List.exists_cons_of_ne_nil (inv.pending inside)
    exact ⟨tp, receive_eq first⟩
  · exact fun tp msg obtained => inv.releases history obtained msg
  · intro inside
    exact ⟨⟨p, history, inv.answered inside⟩, rfl, Function.update_self _ _ _⟩

end Proofs

/-! ### An example -/

/-- The idle thread, a receiver and a sender; the receiver is current. -/
def sampleStart : Messages (Fin 3) where
  core :=
    { p_prio := ![ IDLEPRIO, 129, 128]
      p_state := ![.READY, .CURRENT, .READY]
      p_preempt := fun _ => CH_CFG_TIME_QUANTUM
      rdymsg := fun _ => MSG_OK
      ready := [2, 0]
      currp := 1
      log := [] }
  p_msg := fun _ => 0
  p_msgqueue := fun _ => []
  pc := fun _ => .outside
  log := []

theorem sampleStart_start : Start 0 sampleStart where
  core :=
    { inv :=
        { sorted := by simp [Prio.Descending, sampleStart, IDLEPRIO]
          nodup := by decide
          mem_ready := by decide
          current := by decide
          awake := by decide }
      pos := by decide }
  asleep := by decide
  queue _ := rfl
  pc _ := rfl
  log := rfl

/-- The receiver waits, obtains the message 7, answers 9 and waits again. -/
def sampleAnswered : Messages (Fin 3) :=
  (((sampleStart.chMsgWait.2.chMsgSend 1 7).receive.2.chMsgRelease 2 9).chMsgWait.2).sendReturns.2

theorem sampleAnswered_reachable : Reachable 0 sampleAnswered := by
  refine ⟨sampleStart, sampleStart_start, ?_⟩
  have waits : Relation.ReflTransGen (Step 0) sampleStart sampleStart.chMsgWait.2 :=
    .single (.wait rfl (by decide))
  have sends := waits.tail (.send 1 7 rfl (by decide))
  have receives := sends.tail (.receive rfl)
  have releases := receives.tail (.release 2 9 rfl ⟨_, 7, rfl, rfl⟩)
  have again := releases.tail (.wait rfl (by decide))
  exact again.tail (.sendReturns rfl)

theorem sampleAnswered_synchronous :
    Synchronous 0 sampleAnswered ∧
      sampleAnswered.log = [.sent 2 1 7, .obtained 1 2 7, .released 1 2 9, .returned 2 9] :=
  ⟨messages_synchronous 0 sampleAnswered sampleAnswered_reachable, by decide⟩

end Messages

end LtcOs.Kernel
