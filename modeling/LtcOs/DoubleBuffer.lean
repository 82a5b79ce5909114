import LtcOs.DemodLoop

/-!
The double buffer between `analog_fast_isr` and `demod_loop`.

The interrupt stores one sample at a time and announces each half of `mic_sample`
in `dataReadyFlag`; `demod_loop` copies the half to `dm_buf`, demodulates it and
then clears the flag. `Event` is one step of either side, so a list of events is
an interleaving. A half that completes while the flag is clear is demodulated
exactly as it was stored (`lossless_when_flag_clear`); one that completes during
the demodulation of the half before is dropped with the flag.
-/

namespace LtcOs.DoubleBuffer

open LtcOs.Demod

/-! ### The two sides -/

/-- `MIC_SAMPLE_DEPTH`. -/
def MIC_SAMPLE_DEPTH : Nat := DMBUF_DEPTH * 2

/-- Where `demod_loop` is: waiting for the flag, in round `i` of the copy loop, or
in round `frames` of `phy_demodulate`. -/
inductive Pc where
  | waiting
  | copying (i : Nat)
  | demodulating (frames : Nat)
deriving DecidableEq, Repr

/-- The shared variables and those of each side. `bufloc` is an offset into
`mic_sample`. What went through is recorded: the samples `stored` by the interrupt
with the number of `halves` announced, those of them `further` since the flag was
last observed, and the samples `demodulated`. -/
structure State where
  mic_sample : Nat → UInt16
  adc_current_index : Nat
  dataReadyFlag : UInt8
  bufloc : Nat
  buf_n : Nat
  dm_buf : Nat → Int32
  pc : Pc
  stored : List UInt16
  halves : Nat
  further : Nat
  demodulated : List Int32

/-- The values at reset. -/
def State.initial : State where
  mic_sample _ := 0
  adc_current_index := 0
  dataReadyFlag := 0
  bufloc := 0
  buf_n := 0
  dm_buf _ := 0
  pc := .waiting
  stored := []
  halves := 0
  further := 0
  demodulated := []

/-- `(int16_t) (((int16_t) bufloc[i]) - 2048)`, widened. -/
def center (sample : UInt16) : Int32 := (sample.toInt16 - 2048).toInt32

/-- A half is announced at `loc`, and the next sample goes to `index`. -/
def State.announce (s : State) (loc index : Nat) : State :=
  { s with
    bufloc := loc
    buf_n := MIC_SAMPLE_DEPTH / 2
    adc_current_index := index
    dataReadyFlag := s.dataReadyFlag + 1
    halves := s.halves + 1
    further := s.further + 1 }

def analog_fast_isr (s : State) (ra : UInt16) : State :=
  let s := { s with
    mic_sample := Function.update s.mic_sample s.adc_current_index ra
    adc_current_index := s.adc_current_index + 1
    stored := s.stored ++ [ra] }
  if s.adc_current_index = MIC_SAMPLE_DEPTH then s.announce (MIC_SAMPLE_DEPTH / 2) 0
  else if s.adc_current_index = MIC_SAMPLE_DEPTH / 2 then s.announce 0 s.adc_current_index
  else s

/-- The next step of `demod_loop` and `phy_demodulate`. -/
def consume (s : State) : State :=
  match s.pc with
  | .waiting => if s.dataReadyFlag ≠ 0 then { s with pc := .copying 0, further := 0 } else s
  | .copying i =>
      if i < s.buf_n then
        { s with
          dm_buf := Function.update s.dm_buf i (center (s.mic_sample (s.bufloc + i)))
          pc := .copying (i + 1) }
      else { s with pc := .demodulating 0 }
  | .demodulating frames =>
      if frames < NB_FRAMES then
        { s with
          demodulated := s.demodulated ++
            (List.range NB_SAMPLES).map fun i => s.dm_buf (frames * NB_SAMPLES + i)
          pc := .demodulating (frames + 1) }
      else { s with dataReadyFlag := 0, pc := .waiting }

inductive Event where
  | sample (ra : UInt16)
  | consume

def step (s : State) : Event → State
  | .sample ra => analog_fast_isr s ra
  | .consume => DoubleBuffer.consume s

/-- The event is the last sample of a half. -/
def Completes (s : State) : Event → Prop
  | .sample _ => s.adc_current_index + 1 = MIC_SAMPLE_DEPTH ∨
      s.adc_current_index + 1 = MIC_SAMPLE_DEPTH / 2
  | .consume => False

/-- Runs from `s` whose events are all admitted in the state they are taken in. -/
inductive Run (ok : State → Event → Prop) (s : State) : State → Prop where
  | refl : Run ok s s
  | next {t : State} (before : Run ok s t) (e : Event) (admitted : ok t e) : Run ok s (step t e)

/-- All samples of the halves completed so far. -/
def State.completed (s : State) : List UInt16 := s.stored.take (256 * s.halves)

/-- From the moment the flag is observed until `phy_demodulate` returns, at most
one further half completes, and only after the copy loop. -/
def AtMostOneFurther (s : State) (e : Event) : Prop :=
  Completes s e → match s.pc with
    | .waiting => True
    | .copying _ => False
    | .demodulating _ => s.further = 0

/-- A half completes only while no other is announced. -/
def FlagClear (s : State) (e : Event) : Prop := Completes s e → s.dataReadyFlag = 0

/-- Everything completed has been demodulated or is about to be, in order and with
the values stored. -/
def Lossless (s : State) : Prop :=
  s.demodulated <+: s.completed.map center ∧
    (s.pc = .waiting → s.dataReadyFlag = 0 → s.demodulated = s.completed.map center) ∧
    ∃ n, (consume^[n] s).demodulated = s.completed.map center

/-! ### What holds between two events -/

/-- The interrupt has stored `r` samples of the present half. -/
structure Storing (s : State) (r : Nat) : Prop where
  lt : r < 256
  total : s.stored.length = 256 * s.halves + r
  index : s.adc_current_index = 256 * (s.halves % 2) + r
  here : ∀ i, i < r → s.stored[256 * s.halves + i]? = some (s.mic_sample (256 * (s.halves % 2) + i))

/-- The first `n` samples of half `g` are copied. -/
def Copied (s : State) (g n : Nat) : Prop :=
  ∀ j, j < n → s.stored[256 * g + j]?.map center = some (s.dm_buf j)

/-- How far `demod_loop` is with half `g`. -/
def Working (s : State) (g : Nat) : Pc → Prop
  | .waiting => s.demodulated = (s.stored.take (256 * g)).map center
  | .copying i => i ≤ 256 ∧ Copied s g i ∧ s.demodulated = (s.stored.take (256 * g)).map center
  | .demodulating k =>
      k ≤ 32 ∧ Copied s g 256 ∧ s.demodulated = (s.stored.take (256 * g + 8 * k)).map center

/-- Half `g` is announced, and is the last one. -/
structure Held (s : State) (g : Nat) : Prop where
  last : s.halves = g + 1
  flag : s.dataReadyFlag = 1
  loc : s.bufloc = 256 * (g % 2)
  size : s.buf_n = 256
  kept : ∀ i, i < 256 → s.stored[256 * g + i]? = some (s.mic_sample (256 * (g % 2) + i))
  working : Working s g s.pc

/-- No half is announced. -/
structure Clear (s : State) : Prop where
  flag : s.dataReadyFlag = 0
  waiting : s.pc = .waiting
  all : s.demodulated = s.completed.map center

structure Inv (s : State) : Prop where
  storing : ∃ r, Storing s r
  phase : Clear s ∨ ∃ g, Held s g

section Lists

variable {α β : Type}

theorem take_add_range {l : List α} {f : Nat → α} {m : Nat} (n : Nat)
    (at_ : ∀ j, j < n → l[m + j]? = some (f j)) :
    l.take (m + n) = l.take m ++ (List.range n).map f := by
  induction n with
  | zero => simp
  | succ n ih =>
      have last := at_ n (Nat.lt_succ_self n)
      rw [← Nat.add_assoc, List.take_add_one, ih fun j hj => at_ j (Nat.lt_succ_of_lt hj), last,
        List.range_succ, List.map_append, List.append_assoc]
      rfl

theorem getElem?_append_last {l : List α} {i : Nat} {a x : α} (h : l[i]? = some a) :
    (l ++ [x])[i]? = some a := by
  rw [List.getElem?_append_left (List.getElem?_eq_some_iff.mp h).1, h]

end Lists

section Isr

variable {s : State} {ra : UInt16} {r : Nat}

/-- The state after a sample that does not complete a half. -/
def State.store (s : State) (ra : UInt16) : State :=
  { s with
    mic_sample := Function.update s.mic_sample s.adc_current_index ra
    adc_current_index := s.adc_current_index + 1
    stored := s.stored ++ [ra] }

theorem isr_store (more : ¬ Completes s (.sample ra)) : analog_fast_isr s ra = s.store ra := by
  simp only [Completes, not_or] at more
  simp only [analog_fast_isr]
  rw [if_neg more.1, if_neg more.2]
  rfl

theorem completes_iff (storing : Storing s r) : Completes s (.sample ra) ↔ r = 255 := by
  have lt := storing.lt
  simp only [Completes, storing.index]
  change 256 * (s.halves % 2) + r + 1 = 512 ∨ 256 * (s.halves % 2) + r + 1 = 256 ↔ r = 255
  omega

theorem isr_announce (storing : Storing s r) (last : r = 255) :
    analog_fast_isr s ra =
      (s.store ra).announce (256 * (s.halves % 2)) (256 * ((s.halves + 1) % 2)) := by
  have index := storing.index
  simp only [analog_fast_isr]
  by_cases second : s.halves % 2 = 1
  · rw [if_pos (by change s.adc_current_index + 1 = 512; omega)]
    have next : (s.halves + 1) % 2 = 0 := by omega
    rw [second, next]
    rfl
  · have first : s.halves % 2 = 0 := by omega
    have next : (s.halves + 1) % 2 = 1 := by omega
    rw [if_neg (by change ¬ s.adc_current_index + 1 = 512; omega),
      if_pos (by change s.adc_current_index + 1 = 256; omega), first, next]
    have here : s.adc_current_index + 1 = 256 * 1 := by omega
    rw [← here]
    rfl

/-- The sample is stored behind those of the present half. -/
theorem stored_store (storing : Storing s r) {i : Nat} (hi : i < r + 1) :
    (s.store ra).stored[256 * s.halves + i]? =
      some ((s.store ra).mic_sample (256 * (s.halves % 2) + i)) := by
  have index := storing.index
  have total := storing.total
  simp only [State.store]
  by_cases last : i = r
  · rw [last, ← index, Function.update_self, ← total, List.getElem?_concat_length]
  · rw [Function.update_of_ne (by omega)]
    exact getElem?_append_last (storing.here i (by omega))

/-- What is recorded stays. -/
theorem working_store {g : Nat} {pc : Pc} (long : 256 * (g + 1) ≤ s.stored.length)
    (working : Working s g pc) : Working (s.store ra) g pc := by
  have take : ∀ n, n ≤ 256 * (g + 1) → (s.stored ++ [ra]).take n = s.stored.take n := by
    intro n hn
    exact List.take_append_of_le_length (by omega)
  have copied : ∀ n, Copied s g n → Copied (s.store ra) g n := by
    intro n copied j hj
    obtain ⟨x, at_j, eq⟩ := Option.map_eq_some_iff.mp (copied j hj)
    exact Option.map_eq_some_iff.mpr ⟨x, getElem?_append_last at_j, eq⟩
  cases pc with
  | waiting =>
      change s.demodulated = _
      rw [State.store, take _ (by omega)]
      exact working
  | copying i =>
      obtain ⟨le, copies, eq⟩ := working
      refine ⟨le, copied i copies, ?_⟩
      change s.demodulated = _
      rw [State.store, take _ (by omega)]
      exact eq
  | demodulating k =>
      obtain ⟨le, copies, eq⟩ := working
      refine ⟨le, copied 256 copies, ?_⟩
      change s.demodulated = _
      rw [State.store, take _ (by omega)]
      exact eq

/-- A sample that does not complete a half goes to the half that is not
announced. -/
theorem inv_store (inv : Inv s) (more : ¬ Completes s (.sample ra)) :
    Inv (analog_fast_isr s ra) := by
  rw [isr_store more]
  obtain ⟨⟨r, storing⟩, phase⟩ := inv
  have index := storing.index
  have total := storing.total
  have lt := storing.lt
  have early : r ≠ 255 := fun h => more ((completes_iff storing).mpr h)
  constructor
  · refine ⟨r + 1, by omega, ?_, ?_, fun i hi => stored_store storing hi⟩
    · change (s.stored ++ [ra]).length = _
      rw [List.length_append, List.length_singleton]
      change _ = 256 * s.halves + (r + 1)
      omega
    · change s.adc_current_index + 1 = 256 * (s.halves % 2) + (r + 1)
      omega
  · rcases phase with clear | ⟨g, held⟩
    · refine .inl ⟨clear.flag, clear.waiting, clear.all.trans ?_⟩
      change _ = ((s.stored ++ [ra]).take (256 * s.halves)).map center
      rw [List.take_append_of_le_length (by omega)]
      rfl
    · have last := held.last
      refine .inr ⟨g, last, held.flag, held.loc, held.size, fun i hi => ?_,
        working_store (by omega) held.working⟩
      change (s.stored ++ [ra])[_]? = some (Function.update s.mic_sample s.adc_current_index ra _)
      rw [Function.update_of_ne (by omega)]
      exact getElem?_append_last (held.kept i hi)

/-- A half that completes with the flag clear is the next to be demodulated. -/
theorem inv_announce (inv : Inv s) (completes : Completes s (.sample ra))
    (flag : s.dataReadyFlag = 0) : Inv (analog_fast_isr s ra) := by
  obtain ⟨⟨r, storing⟩, phase⟩ := inv
  have total := storing.total
  have last := (completes_iff storing).mp completes
  have clear : Clear s := by
    rcases phase with clear | ⟨g, held⟩
    · exact clear
    · exact absurd (flag.symm.trans held.flag) (by decide)
  rw [isr_announce storing last]
  constructor
  · refine ⟨0, by omega, ?_, rfl, fun i hi => absurd hi (by omega)⟩
    change (s.stored ++ [ra]).length = 256 * (s.halves + 1) + 0
    rw [List.length_append, List.length_singleton]
    omega
  · refine .inr ⟨s.halves, rfl, ?_, rfl, rfl, fun i hi => stored_store storing (by omega), ?_⟩
    · change s.dataReadyFlag + 1 = 1
      rw [flag]
      rfl
    · have pc : ((s.store ra).announce (256 * (s.halves % 2)) (256 * ((s.halves + 1) % 2))).pc =
          .waiting := clear.waiting
      rw [pc]
      change s.demodulated = ((s.stored ++ [ra]).take (256 * s.halves)).map center
      rw [List.take_append_of_le_length (by omega)]
      exact clear.all

end Isr

section Consumer

variable {s : State}

/-- `demod_loop` leaves what the interrupt works on alone. -/
theorem storing_consume {r : Nat} (storing : Storing s r) : Storing (consume s) r := by
  obtain ⟨lt, total, index, here⟩ := storing
  unfold consume
  split
  · split_ifs <;> exact ⟨lt, total, index, here⟩
  · split_ifs <;> exact ⟨lt, total, index, here⟩
  · split_ifs <;> exact ⟨lt, total, index, here⟩

theorem consume_clear (clear : Clear s) : consume s = s := by
  unfold consume
  rw [clear.waiting]
  exact if_neg (not_not.mpr clear.flag)

/-- The steps `demod_loop` is away from clearing the flag. -/
def Pc.remaining : Pc → Nat
  | .waiting => 291
  | .copying i => 290 - i
  | .demodulating k => 33 - k

/-- One step of `demod_loop` on half `g`. -/
theorem held_consume {g : Nat} (held : Held s g) :
    (Held (consume s) g ∧ (consume s).pc.remaining < s.pc.remaining) ∨ Clear (consume s) := by
  obtain ⟨last, flag, loc, size, kept, working⟩ := held
  cases pc : s.pc with
  | waiting =>
      rw [pc] at working
      have next : consume s = { s with pc := .copying 0, further := 0 } := by
        unfold consume
        rw [pc]
        exact if_pos (by rw [flag]; decide)
      rw [next]
      refine .inl ⟨⟨last, flag, loc, size, kept, by omega, fun j hj => absurd hj (by omega), working⟩, ?_⟩
      change 290 - 0 < 291
      omega
  | copying i =>
      rw [pc] at working
      obtain ⟨le, copied, eq⟩ := working
      by_cases more : i < s.buf_n
      · have next : consume s = { s with
            dm_buf := Function.update s.dm_buf i (center (s.mic_sample (s.bufloc + i)))
            pc := .copying (i + 1) } := by
          unfold consume
          rw [pc]
          exact if_pos more
        rw [size] at more
        rw [next]
        refine .inl ⟨⟨last, flag, loc, size, kept, by omega, fun j hj => ?_, eq⟩,
          show 290 - (i + 1) < 290 - i by omega⟩
        change s.stored[256 * g + j]?.map center = some (Function.update s.dm_buf i _ j)
        by_cases here : j = i
        · rw [here, Function.update_self, loc, kept i more]
          rfl
        · rw [Function.update_of_ne here]
          exact copied j (by omega)
      · have next : consume s = { s with pc := .demodulating 0 } := by
          unfold consume
          rw [pc]
          exact if_neg more
        rw [size] at more
        have full : i = 256 := by omega
        rw [full] at copied
        rw [next]
        refine .inl ⟨⟨last, flag, loc, size, kept, by omega, copied, eq⟩, ?_⟩
        change 33 - 0 < 290 - i
        omega
  | demodulating k =>
      rw [pc] at working
      obtain ⟨le, copied, eq⟩ := working
      by_cases more : k < 32
      · have next : consume s = { s with
            demodulated := s.demodulated ++
              (List.range NB_SAMPLES).map fun i => s.dm_buf (k * NB_SAMPLES + i)
            pc := .demodulating (k + 1) } := by
          unfold consume
          rw [pc]
          exact if_pos more
        rw [next]
        refine .inl ⟨⟨last, flag, loc, size, kept, more, copied, ?_⟩,
          show 33 - (k + 1) < 33 - k by omega⟩
        change s.demodulated ++ _ = ((s.stored.take (256 * g + 8 * (k + 1))).map center)
        have frame : (s.stored.map center).take (256 * g + 8 * k + 8) =
            (s.stored.map center).take (256 * g + 8 * k) ++
              (List.range 8).map fun i => s.dm_buf (k * 8 + i) := by
          apply take_add_range
          intro j hj
          have at_j := copied (k * 8 + j) (by omega)
          rw [List.getElem?_map, ← at_j]
          congr 2
          omega
        rw [eq, List.map_take, List.map_take]
        exact frame.symm
      · have done : k = 32 := by omega
        have next : consume s = { s with dataReadyFlag := 0, pc := .waiting } := by
          unfold consume
          rw [pc]
          exact if_neg more
        rw [done] at eq
        rw [next]
        refine .inr ⟨rfl, rfl, ?_⟩
        change s.demodulated = (s.stored.take (256 * s.halves)).map center
        rw [eq, last, Nat.mul_succ 256 g]

theorem inv_consume (inv : Inv s) : Inv (consume s) := by
  obtain ⟨⟨r, storing⟩, phase⟩ := inv
  refine ⟨⟨r, storing_consume storing⟩, ?_⟩
  rcases phase with clear | ⟨g, held⟩
  · rw [consume_clear clear]
    exact .inl clear
  · rcases held_consume held with ⟨held, -⟩ | clear
    · exact .inr ⟨g, held⟩
    · exact .inl clear

end Consumer

section Runs

variable {s : State}

theorem inv_initial : Inv .initial :=
  ⟨⟨0, by omega, rfl, rfl, fun i hi => absurd hi (by omega)⟩, .inl ⟨rfl, rfl, rfl⟩⟩

theorem inv_run (run : Run FlagClear .initial s) : Inv s := by
  induction run with
  | refl => exact inv_initial
  | @next t _ e admitted inv =>
      cases e with
      | consume => exact inv_consume inv
      | sample ra =>
          by_cases completes : Completes t (.sample ra)
          · exact inv_announce inv completes (admitted completes)
          · exact inv_store inv completes

theorem completed_consume (s : State) : (consume s).completed = s.completed := by
  unfold consume
  split
  · split_ifs <;> rfl
  · split_ifs <;> rfl
  · split_ifs <;> rfl

/-- Left alone, `demod_loop` comes to the end of what it works on. -/
theorem held_finishes {g n : Nat} (held : Held s g) (le : s.pc.remaining ≤ n) :
    ∃ k, (consume^[k] s).demodulated = s.completed.map center := by
  induction n generalizing s with
  | zero =>
      rcases held_consume held with ⟨-, lt⟩ | clear
      · omega
      · exact ⟨1, clear.all.trans (by rw [completed_consume])⟩
  | succ n ih =>
      rcases held_consume held with ⟨held', lt⟩ | clear
      · obtain ⟨k, finished⟩ := ih held' (by omega)
        exact ⟨k + 1, finished.trans (by rw [completed_consume])⟩
      · exact ⟨1, clear.all.trans (by rw [completed_consume])⟩

theorem take_isPrefix_take {l : List UInt16} {m n : Nat} (le : m ≤ n) :
    (l.take m).map center <+: (l.take n).map center := by
  have := List.take_prefix m (l.take n)
  rw [List.take_take, Nat.min_eq_left le] at this
  exact this.map center

theorem working_prefix {g : Nat} {pc : Pc} (working : Working s g pc) :
    s.demodulated <+: (s.stored.take (256 * (g + 1))).map center := by
  cases pc with
  | waiting =>
      change s.demodulated = _ at working
      rw [working]
      exact take_isPrefix_take (by omega)
  | copying i =>
      rw [working.2.2]
      exact take_isPrefix_take (by omega)
  | demodulating k =>
      have le := working.1
      rw [working.2.2]
      exact take_isPrefix_take (by omega)

end Runs

section Play

variable {ok : State → Event → Prop} {test : State → Event → Bool}

/-- Run the events, as long as the test admits them. -/
def play (test : State → Event → Bool) : State → List Event → Option State
  | s, [] => some s
  | s, e :: events => if test s e then play test (step s e) events else none

theorem play_run (sound : ∀ {s e}, test s e = true → ok s e) {s t u : State} {events : List Event}
    (before : Run ok s t) (played : play test t events = some u) : Run ok s u := by
  induction events generalizing t with
  | nil =>
      obtain rfl := Option.some.inj played
      exact before
  | cons e events ih =>
      rw [play] at played
      split_ifs at played with admitted
      exact ih (before.next e (sound admitted)) played

/-- The sample is not the last one of a half. -/
def early (s : State) : Bool :=
  s.adc_current_index + 1 ≠ MIC_SAMPLE_DEPTH ∧ s.adc_current_index + 1 ≠ MIC_SAMPLE_DEPTH / 2

theorem not_completes_of_early {s : State} {ra : UInt16} (h : early s = true) :
    ¬ Completes s (.sample ra) :=
  not_or.mpr (of_decide_eq_true h)

/-- `FlagClear` as a test -/
def flagClear (s : State) : Event → Bool
  | .consume => true
  | .sample _ => early s || s.dataReadyFlag = 0

theorem flagClear_sound {s : State} {e : Event} (h : flagClear s e = true) : FlagClear s e := by
  intro completes
  cases e with
  | consume => exact absurd completes id
  | sample ra =>
      rcases (Bool.or_eq_true _ _).mp h with early | clear
      · exact absurd completes (not_completes_of_early early)
      · exact of_decide_eq_true clear

end Play

/-- As long as every half completes with the flag clear, none is lost. -/
theorem lossless_when_flag_clear {s : State} (run : Run FlagClear .initial s) : Lossless s := by
  obtain ⟨-, clear | ⟨g, held⟩⟩ := inv_run run
  · exact ⟨clear.all ▸ List.prefix_rfl, fun _ _ => clear.all, 0, clear.all⟩
  · refine ⟨?_, fun _ flag => ?_, held_finishes held le_rfl⟩
    · rw [State.completed, held.last]
      exact working_prefix held.working
    · exact absurd (flag.symm.trans held.flag) (by decide)

/-- The samples of a half, each of another value. -/
def sampleHalf : List Event := (List.range 256).map fun i => .sample (UInt16.ofNat i)

/-- Two halves, each demodulated before the next is complete. -/
def sampleHalves : List Event :=
  sampleHalf ++ List.replicate 291 .consume ++ sampleHalf ++ List.replicate 291 .consume

theorem play_sampleHalves :
    ((play flagClear .initial sampleHalves).map fun s =>
      (s.halves, s.pc, s.dataReadyFlag, s.completed.length)) = some (2, .waiting, 0, 512) := by
  decide +kernel

/-- Both halves are through. -/
theorem sampleHalves_lossless : ∃ s, Run FlagClear .initial s ∧ s.halves = 2 ∧
    s.demodulated.length = 512 ∧ Lossless s := by
  obtain ⟨s, played, result⟩ := Option.map_eq_some_iff.mp play_sampleHalves
  simp only [Prod.mk.injEq] at result
  obtain ⟨halves, waiting, flag, completed⟩ := result
  have run : Run FlagClear .initial s := play_run flagClear_sound .refl played
  have lossless : Lossless s := lossless_when_flag_clear run
  have all := congrArg List.length (lossless.2.1 waiting flag)
  rw [List.length_map, completed] at all
  exact ⟨s, run, halves, all, lossless⟩

/-! ### A completion that is dropped -/

/-- `AtMostOneFurther` as a test -/
def atMostOneFurther (s : State) : Event → Bool
  | .consume => true
  | .sample _ =>
      early s ||
        match s.pc with
        | .waiting => true
        | .copying _ => false
        | .demodulating _ => s.further = 0

theorem atMostOneFurther_sound {s : State} {e : Event} (h : atMostOneFurther s e = true) :
    AtMostOneFurther s e := by
  intro completes
  cases e with
  | consume => exact absurd completes id
  | sample ra =>
      rcases (Bool.or_eq_true _ _).mp h with early | late
      · exact absurd completes (not_completes_of_early early)
      · cases pc : s.pc with
        | waiting => trivial
        | copying i =>
            rw [pc] at late
            exact absurd late (by simp)
        | demodulating k =>
            rw [pc] at late
            exact of_decide_eq_true late

/-- Two halves, the second of which completes while the first is demodulated. -/
def droppedHalf : List Event :=
  List.replicate 256 (.sample 0) ++ List.replicate 258 .consume ++ List.replicate 256 (.sample 0) ++
    List.replicate 33 .consume

theorem play_droppedHalf :
    ((play atMostOneFurther .initial droppedHalf).map fun s =>
      (s.pc, s.dataReadyFlag, s.completed.length, s.demodulated.length)) =
        some (.waiting, 0, 512, 256) := by
  decide +kernel

/-- `dataReadyFlag = 0` at the end of `phy_demodulate` drops the second half. -/
theorem completion_dropped : ∃ s, Run AtMostOneFurther .initial s ∧ ¬ Lossless s := by
  obtain ⟨s, played, result⟩ := Option.map_eq_some_iff.mp play_droppedHalf
  refine ⟨s, play_run atMostOneFurther_sound .refl played, fun lossless => ?_⟩
  simp only [Prod.mk.injEq] at result
  obtain ⟨waiting, flag, completed, demodulated⟩ := result
  have all := congrArg List.length (lossless.2.1 waiting flag)
  rw [List.length_map, completed, demodulated] at all
  exact absurd all (by decide)

end LtcOs.DoubleBuffer
