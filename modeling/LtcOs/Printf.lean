import LtcOs.Itoa
import LtcOs.Lib.Memory
import LtcOs.Qfpio

/-!
The formatter `chvprintf` of `chprintf.c`, and `chsnprintf` over the stream of `memstreams.c`.

A format is its characters without the terminator, and the pointer `fmt` is what is left of them. It
can also be behind the terminator: a read there is a fault of the run. Arguments and strings are
read from memory, an argument as a word of 32 bits, which is what an `int`, a `long` and a pointer
are here. Every character goes to the stream by its `put`.
-/

namespace LtcOs.Printf

open LtcOs.Itoa LtcOs.Memory

/-- The value that an `int` holds after an operation. -/
def wrap (v : Int) : Int := v.bmod 4294967296

/-- Why a run does not come to its end: a character behind the terminator was read, the stack was
written behind `tmpbuf`, or the bound on the rounds was too small. -/
inductive Fault where
  | overrun
  | tmpbuf
  | rounds
  deriving DecidableEq, Repr

structure Format where
  chars : List UInt8
  no_nul : 0 ∉ chars

/-! ### Parsing a directive -/

/-- The place of the pointer `fmt`; `none` is behind the terminator. -/
abbrev Cursor := Option (List UInt8)

/-- `*fmt` -/
def peek : Cursor → Except Fault UInt8
  | none => .error .overrun
  | some l => .ok (l.headD 0)

/-- `fmt++` -/
def advance : Cursor → Cursor
  | some (_ :: l) => some l
  | _ => none

/-- A flag that is stepped over if it is there. -/
def flag (c : UInt8) (fmt : Cursor) : Except Fault (Bool × Cursor) := do
  if (← peek fmt) = c then return (true, advance fmt) else return (false, fmt)

/-- What a loop over digits and stars leaves behind. -/
structure Scan where
  c : UInt8
  fmt : Cursor
  ap : Nat
  value : Int

/-- The argument of a star is cut to a `char`. -/
def scan (mem : Mem) : List UInt8 → (ap : Nat) → (value : Int) → Scan
  | [], ap, value => ⟨0, none, ap, value⟩
  | c :: fmt, ap, value =>
      if _isdigit c then scan mem fmt ap (wrap (value * 10 + (c - 48).toNat))
      else if c = 42 then scan mem fmt (ap + 4) (wrap (value * 10 + (word mem ap).toUInt8.toNat))
      else ⟨c, some fmt, ap, value⟩

def number (mem : Mem) (fmt : Cursor) (ap : Nat) : Except Fault Scan :=
  match fmt with
  | none => .error .overrun
  | some l => .ok (scan mem l ap 0)

/-- The local variables before the command is decoded. -/
structure Directive where
  left_align : Bool
  filler : UInt8
  width : Int
  precision : Int
  is_long : Bool
  c : UInt8

/-- The long modifier, with what has been read before it. -/
def longModifier (d : Bool → UInt8 → Directive) (s : Scan) :
    Except Fault (Directive × Cursor × Nat) := do
  if s.c = 108 ∨ s.c = 76 then
    let c ← peek s.fmt
    if c ≠ 0 then return (d true c, advance s.fmt, s.ap)
    else return (d true s.c, s.fmt, s.ap)
  else return (d (65 ≤ s.c && s.c ≤ 90) s.c, s.fmt, s.ap)

def directive (mem : Mem) (fmt : Cursor) (ap : Nat) : Except Fault (Directive × Cursor × Nat) := do
  let minus ← flag 45 fmt
  let zero ← flag 48 minus.2
  let width ← number mem zero.2 ap
  let precision ←
    if width.c = 46 then number mem width.fmt width.ap else pure { width with value := 0 }
  longModifier (Directive.mk minus.1 (if zero.1 then 48 else 32) width.value precision.value)
    precision

/-! ### Decoding the command -/

/-- The labels of the `switch`. -/
inductive Command where
  | char
  | string
  | signed
  | float
  | unsigned (radix : UInt32)
  | other
  deriving DecidableEq, Repr

def command (c : UInt8) : Command :=
  if c = 99 then .char
  else if c = 115 then .string
  else if c = 68 ∨ c = 100 ∨ c = 73 ∨ c = 105 then .signed
  else if c = 102 then .float
  else if c = 88 ∨ c = 120 then .unsigned 16
  else if c = 85 ∨ c = 117 then .unsigned 10
  else if c = 79 ∨ c = 111 then .unsigned 8
  else .other

/-- How often `--i >= 0` holds. -/
def countdown (i : Int) : Nat := if 0 ≤ wrap (i - 1) then (wrap (i - 1)).toNat + 1 else 0

/-- The characters from `i` on, up to the terminator and at most `left` of them. -/
def string (s : Nat → UInt8) : (left i : Nat) → List UInt8
  | 0, _ => []
  | left + 1, i => if s i = 0 then [] else s i :: string s left (i + 1)

/-- `"(null)"` -/
def null (i : Nat) : UInt8 := [40, 110, 117, 108, 108, 41].getD i 0

/-- What `ch_ltoa` leaves in front of its result. -/
def digits (tmpbuf : Buffer) (p : Nat) (l radix : UInt32) : List UInt8 :=
  match ch_ltoa tmpbuf p l radix with
  | some (s, p) => s.slice 0 p
  | none => []

/-- The floating-point library: the test for a negative number, and its negation. -/
structure Floats where
  negative : UInt32 → Bool
  neg : UInt32 → UInt32

/-- The format word has eight bits for the number of places. -/
def ftoa (f : UInt32) (_width precision : Int) : List UInt8 :=
  Qfpio.qfp_float2str f (precision % 256).toNat

/-- The size of `tmpbuf`, `2*MAX_FILLER + 1`. -/
def TMPBUF_SIZE : Nat := 23

/-- `va_arg_align_if_necessary`, for a `double`. -/
def va_arg_align (ap : Nat) : Nat := if ap % 8 = 4 then ap else ap + 4

/-- The filler, the characters between `s` and `p`, and the arguments that are left. An argument
that `is_long` is read like any other one. The text of a floating-point number ends behind its
terminator, which counts like the other characters. -/
def decode (floats : Floats) (mem : Mem) (d : Directive) (ap : Nat) :
    Except Fault (UInt8 × List UInt8 × Nat) := do
  let tmpbuf := Buffer.mk (fun _ => 0) []
  match command d.c with
  | .char => return (32, [(word mem ap).toUInt8], ap + 4)
  | .string =>
      let s := if word mem ap = 0 then null else fun i => mem ((word mem ap).toNat + i)
      return (32, string s (countdown (if d.precision = 0 then 32767 else d.precision)) 0, ap + 4)
  | .signed =>
      let l := word mem ap
      return (d.filler,
        if 0x80000000 ≤ l then digits (tmpbuf.put 0 45) 1 (-l) 10 else digits tmpbuf 0 l 10, ap + 4)
  | .float =>
      -- a `double`, of which the lower half is skipped
      let ap := va_arg_align ap
      let f := word mem ap
      let text := if floats.negative f then 45 :: ftoa (floats.neg f) d.width d.precision
        else ftoa f d.width d.precision
      if TMPBUF_SIZE < text.length then throw .tmpbuf
      return (d.filler, text, ap + 8)
  | .unsigned radix => return (d.filler, digits tmpbuf 0 (word mem ap) radix, ap + 4)
  | .other => return (d.filler, [d.c], ap)

/-! ### Output -/

section Output

variable {σ : Type} (put : σ → UInt8 → σ)

/-- The stream, and the characters counted. -/
structure Out (σ : Type) where
  chp : σ
  n : Int

def streamPut (out : Out σ) (c : UInt8) : Out σ := ⟨put out.chp c, wrap (out.n + 1)⟩

/-- A loop that puts the filler. -/
def fill (filler : UInt8) : Nat → Out σ → Out σ
  | 0, out => out
  | width + 1, out => fill filler width (streamPut put out filler)

/-- The loop that puts the characters from `s` on. -/
def send : List UInt8 → Out σ → Out σ
  | [], out => out
  | c :: s, out => send s (streamPut put out c)

/-- The text of a conversion with its fillers. The width is negative for a text that is aligned to
the right. -/
def layout (left_align : Bool) (filler : UInt8) (width : Int) (s : List UInt8) (out : Out σ) :
    Out σ :=
  let i := wrap s.length
  let width := if wrap (width - i) < 0 then 0 else wrap (width - i)
  let width := if left_align then width else -width
  if width < 0 then
    if s.head? = some 45 ∧ filler = 48 then
      let out := fill put filler (-width).toNat (streamPut put out 45)
      send put (s.tail.take (countdown (i - 1))) out
    else send put (s.take (countdown i)) (fill put filler (-width).toNat out)
  else fill put filler width.toNat (send put (s.take (countdown i)) out)

variable (floats : Floats) (mem : Mem)

/-- The main loop, with a bound on the rounds. -/
def loop : (rounds : Nat) → Cursor → (ap : Nat) → Out σ → Except Fault (Out σ)
  | 0, _, _, _ => .error .rounds
  | rounds + 1, fmt, ap, out => do
      let c ← peek fmt
      let fmt := advance fmt
      if c = 0 then return out
      else if c ≠ 37 then loop rounds fmt ap (streamPut put out c)
      else
        let d ← directive mem fmt ap
        let text ← decode floats mem d.1 d.2.2
        loop rounds d.2.1 text.2.2 (layout put d.1.left_align text.1 d.1.width text.2.1 out)

/-- Every round takes a character. -/
def chvprintf (chp : σ) (fmt : Format) (ap : Nat) : Except Fault (Out σ) :=
  loop put floats mem (fmt.chars.length + 1) (some fmt.chars) ap ⟨chp, 0⟩

end Output

structure MemoryStream where
  buffer : Buffer
  size : UInt32
  eos : UInt32

/-- A character for which there is no room is dropped. -/
def MemoryStream.put (msp : MemoryStream) (b : UInt8) : MemoryStream :=
  if msp.size - msp.eos ≤ 0 then msp
  else { msp with buffer := msp.buffer.put msp.eos.toNat b, eos := msp.eos + 1 }

/-- The buffer `str` is not part of the memory that the format and its arguments are read from. -/
def chsnprintf (floats : Floats) (mem : Mem) (str : Buffer) (size : UInt32) (fmt : Format)
    (ap : Nat) : Except Fault (Buffer × Int) := do
  let size_wo_nul := if size > 0 then size - 1 else 0
  let out ← chvprintf MemoryStream.put floats mem ⟨str, size_wo_nul, 0⟩ fmt ap
  let ms := out.chp
  let str := if ms.eos < size then ms.buffer.put ms.eos.toNat 0 else ms.buffer
  return (str, out.n)

/-! ### What a format is -/

section Grammar

/-- A digit or a star. -/
def isAmount (c : UInt8) : Bool := _isdigit c || c == 42

/-- A conversion as it is written. -/
structure Conversion where
  minus : Bool
  zero : Bool
  width : List UInt8
  precision : List UInt8
  command : UInt8

def skip (c : UInt8) (l : List UInt8) : List UInt8 := if l.head? = some c then l.tail else l

/-- The command, behind a modifier if there is one and it is not the end of the format. -/
def commandOf (c : UInt8 → Conversion) : List UInt8 → Option (Conversion × List UInt8)
  | [] => none
  | modifier :: rest =>
      if modifier = 108 ∨ modifier = 76 then some (c (rest.headD modifier), rest.tail)
      else some (c modifier, rest)

/-- The conversion at the start of what follows a percent sign, and what follows it, unless the
format ends before its command. -/
def conversion (l : List UInt8) : Option (Conversion × List UInt8) :=
  let l₁ := skip 45 l
  let l₂ := skip 48 l₁
  let l₃ := l₂.dropWhile isAmount
  let c := Conversion.mk (l.head? = some 45) (l₁.head? = some 48) (l₂.takeWhile isAmount)
  if l₃.head? = some 46 then
    commandOf (c (l₃.tail.takeWhile isAmount)) (l₃.tail.dropWhile isAmount)
  else commandOf (c []) l₃

/-- A character of its own, or a conversion. -/
inductive Item where
  | char (c : UInt8)
  | conversion (c : Conversion)

inductive Parses : List UInt8 → List Item → Prop where
  | nil : Parses [] []
  | char {c : UInt8} {l : List UInt8} {items : List Item} :
      c ≠ 37 → Parses l items → Parses (c :: l) (.char c :: items)
  | conversion {l l' : List UInt8} {c : Conversion} {items : List Item} :
      conversion l = some (c, l') → Parses l' items → Parses (37 :: l) (.conversion c :: items)

/-- The format does not end inside a conversion. -/
def Whole (l : List UInt8) : Prop := ∃ items, Parses l items

end Grammar

/-! ### Directives and conversions -/

section Directives

variable {mem : Mem} {l l' : List UInt8} {c : Conversion}

theorem skip_suffix (c : UInt8) (l : List UInt8) : skip c l <:+ l := by
  unfold skip
  split_ifs
  · exact List.tail_suffix l
  · exact List.suffix_refl l

theorem flag_some {c : UInt8} (nonzero : c ≠ 0) (l : List UInt8) :
    flag c (some l) = .ok (l.head? = some c, some (skip c l)) := by
  cases l with
  | nil => simp [flag, peek, skip, nonzero.symm, bind, Except.bind, pure, Except.pure]
  | cons first l =>
      by_cases same : first = c
      · simp [flag, peek, skip, advance, same, bind, Except.bind, pure, Except.pure]
      · simp [flag, peek, skip, same, bind, Except.bind, pure, Except.pure]

/-- The loop over digits and stars reads them and the character behind them. -/
theorem scan_eq (mem : Mem) (l : List UInt8) (ap : Nat) (value : Int) :
    scan mem l ap value =
      ⟨(l.dropWhile isAmount).headD 0, advance (some (l.dropWhile isAmount)),
        (scan mem (l.takeWhile isAmount) ap value).ap,
        (scan mem (l.takeWhile isAmount) ap value).value⟩ := by
  induction l generalizing ap value with
  | nil => rfl
  | cons c l ih =>
      by_cases digit : _isdigit c = true
      · have amount : isAmount c = true := by simp [isAmount, digit]
        simp only [scan, if_pos digit, List.dropWhile_cons_of_pos amount,
          List.takeWhile_cons_of_pos amount]
        exact ih _ _
      · by_cases star : c = 42
        · subst star
          have amount : isAmount 42 = true := rfl
          simp only [scan, if_neg digit, if_true, List.dropWhile_cons_of_pos amount,
            List.takeWhile_cons_of_pos amount]
          exact ih _ _
        · have amount : ¬ isAmount c = true := by simp [isAmount, digit, star]
          simp only [scan, if_neg digit, if_neg star, List.dropWhile_cons_of_neg amount,
            List.takeWhile_cons_of_neg amount]
          rfl

namespace Conversion

/-- The width that is read. -/
def widthScan (mem : Mem) (c : Conversion) (ap : Nat) : Scan := scan mem c.width ap 0

/-- The precision that is read. -/
def precisionScan (mem : Mem) (c : Conversion) (ap : Nat) : Scan :=
  scan mem c.precision (c.widthScan mem ap).ap 0

def directive (mem : Mem) (c : Conversion) (ap : Nat) (is_long : Bool) : Directive :=
  ⟨c.minus, if c.zero then 48 else 32, (c.widthScan mem ap).value, (c.precisionScan mem ap).value,
    is_long, c.command⟩

end Conversion

theorem commandOf_suffix {f : UInt8 → Conversion} (is : commandOf f l = some (c, l')) :
    l' <:+ l := by
  cases l with
  | nil => cases is
  | cons modifier rest =>
      have last : rest <:+ modifier :: rest := List.suffix_cons modifier rest
      rw [commandOf] at is
      split_ifs at is
      · cases is
        exact (List.tail_suffix rest).trans last
      · cases is
        exact last

/-- What is behind the width. -/
theorem behind_width_suffix (l : List UInt8) :
    (skip 48 (skip 45 l)).dropWhile isAmount <:+ l :=
  (List.dropWhile_suffix isAmount).trans ((skip_suffix 48 _).trans (skip_suffix 45 l))

/-- What is behind the precision. -/
theorem behind_precision_suffix (l : List UInt8) :
    ((skip 48 (skip 45 l)).dropWhile isAmount).tail.dropWhile isAmount <:+ l :=
  (List.dropWhile_suffix isAmount).trans ((List.tail_suffix _).trans (behind_width_suffix l))

theorem conversion_suffix (is : conversion l = some (c, l')) : l' <:+ l := by
  rw [conversion] at is
  split_ifs at is
  · exact (commandOf_suffix is).trans (behind_precision_suffix l)
  · exact (commandOf_suffix is).trans (behind_width_suffix l)

/-- The long modifier is stepped over if it is not the end of the format. -/
theorem longModifier_spec {d : Bool → UInt8 → Directive} {f : UInt8 → Conversion} {s : Scan}
    {ap : Nat} (no_nul : 0 ∉ l) (first : s.c = l.headD 0) (rest : s.fmt = advance (some l))
    (same : ∀ is_long command, d is_long command = (f command).directive mem ap is_long)
    (args : ∀ command, ((f command).precisionScan mem ap).ap = s.ap) :
    match commandOf f l with
    | none => ∃ d' ap', longModifier d s = .ok (d', none, ap')
    | some (c, l') => ∃ is_long, longModifier d s =
        .ok (c.directive mem ap is_long, some l', (c.precisionScan mem ap).ap) := by
  cases l with
  | nil =>
      have no_modifier : ¬ ((0 : UInt8) = 108 ∨ (0 : UInt8) = 76) := by decide
      rw [List.headD_nil] at first
      refine ⟨d (65 ≤ (0 : UInt8) && (0 : UInt8) ≤ 90) 0, s.ap, ?_⟩
      rw [longModifier, first, if_neg no_modifier, rest]
      rfl
  | cons modifier l =>
      rw [List.headD_cons] at first
      rw [advance] at rest
      by_cases long : modifier = 108 ∨ modifier = 76
      · rw [commandOf, if_pos long, longModifier, first, if_pos long, rest]
        refine ⟨true, ?_⟩
        rw [← same, args]
        cases l with
        | nil => rfl
        | cons command l =>
            have nonzero : command ≠ 0 := by
              rintro rfl
              exact no_nul (by simp)
            simp only [peek, List.headD_cons, bind, Except.bind, if_pos nonzero]
            rfl
      · rw [commandOf, if_neg long, longModifier, first, if_neg long, rest]
        refine ⟨65 ≤ modifier && modifier ≤ 90, ?_⟩
        rw [← same, args]
        rfl

/-- A directive is parsed as a conversion of the format, or up to behind the terminator. -/
theorem directive_spec (mem : Mem) (no_nul : 0 ∉ l) (ap : Nat) :
    match conversion l with
    | none => ∃ d ap', directive mem (some l) ap = .ok (d, none, ap')
    | some (c, l') => ∃ is_long, directive mem (some l) ap =
        .ok (c.directive mem ap is_long, some l', (c.precisionScan mem ap).ap) := by
  have minus := flag_some (c := 45) (by decide) l
  have zero := flag_some (c := 48) (by decide) (skip 45 l)
  have no_nul' : 0 ∉ (skip 48 (skip 45 l)).dropWhile isAmount :=
    fun mem => no_nul ((behind_width_suffix l).subset mem)
  have no_nul'' : 0 ∉ ((skip 48 (skip 45 l)).dropWhile isAmount).tail.dropWhile isAmount :=
    fun mem => no_nul ((behind_precision_suffix l).subset mem)
  simp only [conversion, directive, bind, Except.bind, minus, zero, number,
    scan_eq mem (skip 48 (skip 45 l))]
  generalize (skip 48 (skip 45 l)).dropWhile isAmount = l₃ at no_nul' no_nul'' ⊢
  by_cases dot : l₃.head? = some 46
  · obtain ⟨l₄, rfl⟩ := List.head?_eq_some_iff.mp dot
    rw [if_pos dot, List.headD_cons, if_pos rfl]
    simp only [List.tail_cons, advance] at no_nul'' ⊢
    refine longModifier_spec no_nul'' ?_ ?_ (fun is_long command => ?_) (fun command => ?_)
    · rw [scan_eq]
    · rw [scan_eq]
    · rw [scan_eq mem l₄]
      simp only [Conversion.directive, Conversion.widthScan, Conversion.precisionScan,
        decide_eq_true_eq]
    · rw [scan_eq mem l₄]
      rfl
  · have no_dot : l₃.headD 0 ≠ 46 := by
      cases l₃ with
      | nil => decide
      | cons first l₄ => simpa using dot
    rw [if_neg dot, if_neg no_dot]
    exact longModifier_spec no_nul' rfl rfl (fun is_long command => rfl) (fun command => rfl)

end Directives

/-! ### The end of the format -/

section End

variable {σ : Type} (put : σ → UInt8 → σ) (floats : Floats) (mem : Mem)

/-- What the items of a format put out. -/
def run : List Item → (ap : Nat) → Out σ → Except Fault (Out σ)
  | [], _, out => return out
  | .char c :: items, ap, out => run items ap (streamPut put out c)
  | .conversion c :: items, ap, out => do
      let d := c.directive mem ap false
      let text ← decode floats mem d (c.precisionScan mem ap).ap
      run items text.2.2 (layout put d.left_align text.1 d.width text.2.1 out)

/-- The arguments behind the one of a command. -/
def behindArgument (command : Command) (ap : Nat) : Nat :=
  match command with
  | .other => ap
  | .float => va_arg_align ap + 8
  | _ => ap + 4

/-- The characters of `tmpbuf` that a floating-point number takes: a minus sign, the digits before
the point, the point and the places behind it, and the terminator. -/
def floatLength (f : UInt32) (precision : Int) : Nat :=
  if floats.negative f then Qfpio.length (floats.neg f) (precision % 256).toNat + 1
  else Qfpio.length f (precision % 256).toNat

/-- `tmpbuf` has room for all floating-point numbers of the format. -/
def FloatsFit : List Item → (ap : Nat) → Prop
  | [], _ => True
  | .char _ :: items, ap => FloatsFit items ap
  | .conversion c :: items, ap =>
      let arg := (c.precisionScan mem ap).ap
      (command c.command = .float →
        floatLength floats (word mem (va_arg_align arg)) (c.precisionScan mem ap).value ≤
          TMPBUF_SIZE) ∧
        FloatsFit items (behindArgument (command c.command) arg)

variable {put floats mem} {l : List UInt8} {items : List Item}

/-- A whole format is worked through item by item. -/
theorem loop_of_parses (parses : Parses l items) (no_nul : 0 ∉ l) {rounds : Nat}
    (enough : l.length < rounds) (ap : Nat) (out : Out σ) :
    loop put floats mem rounds (some l) ap out = run put floats mem items ap out := by
  induction parses generalizing rounds ap out with
  | nil =>
      cases rounds with
      | zero => exact absurd enough (Nat.not_lt_zero _)
      | succ rounds => rfl
  | @char c l items other parses ih =>
      cases rounds with
      | zero => exact absurd enough (Nat.not_lt_zero _)
      | succ rounds =>
          have nonzero : c ≠ 0 := fun zero => no_nul (zero ▸ List.mem_cons_self)
          have fewer : l.length < rounds := Nat.lt_of_succ_lt_succ enough
          simp only [loop, peek, List.headD_cons, bind, Except.bind, if_neg nonzero, if_pos other,
            advance]
          exact ih (fun mem => no_nul (List.mem_cons_of_mem _ mem)) fewer ap _
  | @conversion l l' c items is parses ih =>
      cases rounds with
      | zero => exact absurd enough (Nat.not_lt_zero _)
      | succ rounds =>
          have suffix := conversion_suffix is
          have rest : 0 ∉ l := fun mem => no_nul (List.mem_cons_of_mem _ mem)
          have fewer : l'.length < rounds := by
            have := suffix.length_le
            rw [List.length_cons] at enough
            omega
          have spec := directive_spec mem rest ap
          rw [is] at spec
          obtain ⟨is_long, spec⟩ := spec
          have percent : ¬ (37 : UInt8) = 0 := by decide
          have same : decode floats mem (c.directive mem ap is_long) (c.precisionScan mem ap).ap =
              decode floats mem (c.directive mem ap false) (c.precisionScan mem ap).ap := rfl
          simp only [loop, peek, List.headD_cons, bind, Except.bind, if_neg percent,
            ne_eq, not_true_eq_false, if_false, advance, spec, same, run]
          cases decode floats mem (c.directive mem ap false) (c.precisionScan mem ap).ap with
          | error fault => rfl
          | ok text => exact ih (fun mem => rest (suffix.subset mem)) fewer _ _

/-- A command is decoded, but for a floating-point number that is too long. -/
theorem decode_cases (floats : Floats) (mem : Mem) (d : Directive) (ap : Nat) :
    (decode floats mem d ap = .error .tmpbuf ∧ command d.c = .float ∧
        TMPBUF_SIZE < floatLength floats (word mem (va_arg_align ap)) d.precision) ∨
      ∃ text, decode floats mem d ap = .ok text ∧ text.2.2 = behindArgument (command d.c) ap ∧
        (command d.c = .float →
          floatLength floats (word mem (va_arg_align ap)) d.precision ≤ TMPBUF_SIZE) := by
  unfold decode behindArgument
  dsimp only
  cases kind : command d.c with
  | char => exact .inr ⟨_, rfl, rfl, nofun⟩
  | string => exact .inr ⟨_, rfl, rfl, nofun⟩
  | signed => exact .inr ⟨_, rfl, rfl, nofun⟩
  | unsigned radix => exact .inr ⟨_, rfl, rfl, nofun⟩
  | other => exact .inr ⟨_, rfl, rfl, nofun⟩
  | float =>
      have length : (if floats.negative (word mem (va_arg_align ap)) then
            45 :: ftoa (floats.neg (word mem (va_arg_align ap))) d.width d.precision
          else ftoa (word mem (va_arg_align ap)) d.width d.precision).length =
          floatLength floats (word mem (va_arg_align ap)) d.precision := by
        unfold floatLength ftoa
        split_ifs
        · rw [List.length_cons, Qfpio.length_qfp_float2str]
        · exact Qfpio.length_qfp_float2str _ _
      dsimp only
      rw [length]
      by_cases long : TMPBUF_SIZE < floatLength floats (word mem (va_arg_align ap)) d.precision
      · rw [if_pos long]
        exact .inl ⟨rfl, rfl, long⟩
      · rw [if_neg long]
        exact .inr ⟨_, rfl, rfl, fun _ => not_lt.mp long⟩

/-- The items are put out exactly if there is room for their floating-point numbers. -/
theorem run_cases (put : σ → UInt8 → σ) (floats : Floats) (mem : Mem) (items : List Item) (ap : Nat)
    (out : Out σ) :
    (run put floats mem items ap out = .error .tmpbuf ∧ ¬ FloatsFit floats mem items ap) ∨
      ((∃ out', run put floats mem items ap out = .ok out') ∧ FloatsFit floats mem items ap) := by
  induction items generalizing ap out with
  | nil => exact .inr ⟨⟨out, rfl⟩, trivial⟩
  | cons item items ih =>
      cases item with
      | char c => exact ih ap _
      | conversion c =>
          rw [run, FloatsFit]
          rcases decode_cases floats mem (c.directive mem ap false) (c.precisionScan mem ap).ap with
            ⟨fault, kind, long⟩ | ⟨text, ok, behind, room⟩
          · rw [fault]
            exact .inl ⟨rfl, fun fits => absurd (fits.1 kind) (not_le.mpr long)⟩
          · have next := ih text.2.2
              (layout put (c.directive mem ap false).left_align text.1
                (c.directive mem ap false).width text.2.1 out)
            rw [behind] at next
            simp only [ok, bind, Except.bind]
            rw [behind]
            rcases next with ⟨fault, unfit⟩ | ⟨stops, fits⟩
            · exact .inl ⟨fault, fun fits => unfit fits.2⟩
            · exact .inr ⟨stops, room, fits⟩

/-- From a format that is cut, a character behind the terminator is read, unless the stack is
written before. -/
theorem loop_of_cut (put : σ → UInt8 → σ) (floats : Floats) (mem : Mem) (cut : ¬ Whole l)
    (no_nul : 0 ∉ l) {rounds : Nat} (enough : l.length < rounds) (ap : Nat) (out : Out σ) :
    ∃ fault, fault ≠ .rounds ∧ loop put floats mem rounds (some l) ap out = .error fault := by
  induction rounds generalizing l ap out with
  | zero => exact absurd enough (Nat.not_lt_zero _)
  | succ rounds ih =>
      cases l with
      | nil => exact absurd ⟨[], .nil⟩ cut
      | cons c l =>
          have nonzero : c ≠ 0 := fun zero => no_nul (zero ▸ List.mem_cons_self)
          have rest : 0 ∉ l := fun mem => no_nul (List.mem_cons_of_mem _ mem)
          have fewer : l.length < rounds := Nat.lt_of_succ_lt_succ enough
          by_cases percent : c = 37
          · subst percent
            have spec := directive_spec mem rest ap
            simp only [loop, peek, List.headD_cons, bind, Except.bind, if_neg nonzero,
              ne_eq, not_true_eq_false, if_false, advance]
            cases is : conversion l with
            | none =>
                -- the next round reads behind the terminator
                rw [is] at spec
                obtain ⟨d, ap', spec⟩ := spec
                rw [spec]
                dsimp only
                rcases decode_cases floats mem d ap' with ⟨fault, -, -⟩ | ⟨text, ok, -, -⟩
                · rw [fault]
                  exact ⟨.tmpbuf, nofun, rfl⟩
                · rw [ok]
                  cases rounds with
                  | zero => exact absurd fewer (Nat.not_lt_zero _)
                  | succ rounds => exact ⟨.overrun, nofun, rfl⟩
            | some found =>
                obtain ⟨c, l'⟩ := found
                rw [is] at spec
                obtain ⟨is_long, spec⟩ := spec
                have suffix := conversion_suffix is
                have cut' : ¬ Whole l' := fun ⟨items, parses⟩ => cut ⟨_, .conversion is parses⟩
                rw [spec]
                dsimp only
                rcases decode_cases floats mem (c.directive mem ap is_long)
                  (c.precisionScan mem ap).ap with ⟨fault, -, -⟩ | ⟨text, ok, -, -⟩
                · rw [fault]
                  exact ⟨.tmpbuf, nofun, rfl⟩
                · rw [ok]
                  exact ih cut' (fun mem => rest (suffix.subset mem))
                    (by have := suffix.length_le; omega)
                    _ _
          · have cut' : ¬ Whole l := fun ⟨items, parses⟩ => cut ⟨_, .char percent parses⟩
            simp only [loop, peek, List.headD_cons, bind, Except.bind, if_neg nonzero, ne_eq,
              percent,
              not_false_eq_true, if_true, advance]
            exact ih cut' rest fewer ap _

/-- The bound on the rounds is never the reason to stop. -/
theorem chvprintf_rounds (chp : σ) (fmt : Format) (ap : Nat) :
    chvprintf put floats mem chp fmt ap ≠ .error .rounds := by
  intro rounds
  by_cases whole : Whole fmt.chars
  · obtain ⟨items, parses⟩ := whole
    rw [chvprintf, loop_of_parses parses fmt.no_nul (Nat.lt_succ_self _)] at rounds
    rcases run_cases put floats mem items ap ⟨chp, 0⟩ with ⟨fault, -⟩ | ⟨⟨out, ok⟩, -⟩
    · rw [fault] at rounds
      cases rounds
    · rw [ok] at rounds
      cases rounds
  · obtain ⟨fault, other, result⟩ := loop_of_cut put floats mem whole fmt.no_nul
      (Nat.lt_succ_self _) ap ⟨chp, 0⟩
    rw [chvprintf, result] at rounds
    cases rounds
    exact other rfl

/-- The formatter comes to its end, without reading behind the terminator of the format and without
writing behind `tmpbuf`, exactly on the formats that do not end inside a conversion and whose
floating-point numbers are short enough. -/
theorem chvprintf_stops_iff (put : σ → UInt8 → σ) (floats : Floats) (mem : Mem) (chp : σ) (fmt : Format)
    (ap : Nat) :
    (∃ out, chvprintf put floats mem chp fmt ap = .ok out) ↔
      ∃ items, Parses fmt.chars items ∧ FloatsFit floats mem items ap := by
  constructor
  · rintro ⟨out, result⟩
    by_cases whole : Whole fmt.chars
    · obtain ⟨items, parses⟩ := whole
      refine ⟨items, parses, ?_⟩
      rw [chvprintf, loop_of_parses parses fmt.no_nul (Nat.lt_succ_self _)] at result
      rcases run_cases put floats mem items ap ⟨chp, 0⟩ with ⟨fault, -⟩ | ⟨-, fits⟩
      · rw [fault] at result
        cases result
      · exact fits
    · obtain ⟨fault, -, stops⟩ := loop_of_cut put floats mem whole fmt.no_nul
        (Nat.lt_succ_self _) ap ⟨chp, 0⟩
      rw [chvprintf, stops] at result
      cases result
  · rintro ⟨items, parses, fits⟩
    rw [chvprintf, loop_of_parses parses fmt.no_nul (Nat.lt_succ_self _)]
    rcases run_cases put floats mem items ap ⟨chp, 0⟩ with ⟨-, unfit⟩ | ⟨stops, -⟩
    · exact absurd fits unfit
    · exact stops

/-- `"%f"` with 10^30 takes 32 characters, more than `tmpbuf` has. -/
example : floatLength ⟨fun _ => false, id⟩ 0x7149f2ca 0 = 32 := by decide +kernel

/-- A format that is a percent sign. -/
theorem percent_overrun :
    ¬ ∀ (floats : Floats) (mem : Mem) (fmt : Format) (ap : Nat), ∃ out,
      chvprintf (fun (l : List UInt8) c => l ++ [c]) floats mem [] fmt ap = .ok out := by
  intro all
  obtain ⟨out, result⟩ := all ⟨fun _ => false, id⟩ (fun _ => 0) ⟨[37], by decide⟩ 0
  cases result

end End

end LtcOs.Printf
