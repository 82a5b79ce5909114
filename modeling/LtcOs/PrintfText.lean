import LtcOs.Printf

/-!
What a format says: the text of every conversion, filled up to its width. `chvprintf` puts out the
pieces of the format one after the other, and `chsnprintf` stores as much of them as there is room
for.

The amounts of a format are natural numbers here. They are what the formatter reads in its `int`
variables as long as they fit.
-/

namespace LtcOs.Printf

open LtcOs.Itoa LtcOs.Memory LtcOs.Numeral

/-! ### Pieces -/

section Pieces

variable (mem : Mem)

/-- A width or a precision, and the arguments behind it. -/
def amount : List UInt8 → (ap value : Nat) → Nat × Nat
  | [], ap, value => (value, ap)
  | c :: l, ap, value =>
      if _isdigit c then amount l ap (value * 10 + (c - 48).toNat)
      else if c = 42 then amount l (ap + 4) (value * 10 + (word mem ap).toNat)
      else (value, ap)

/-- The arguments of stars are between 0 and 127. -/
def StarsFit : List UInt8 → (ap : Nat) → Prop
  | [], _ => True
  | c :: l, ap =>
      if _isdigit c then StarsFit l ap
      else if c = 42 then (word mem ap).toNat ≤ 127 ∧ StarsFit l (ap + 4)
      else True

/-- A number in a radix. -/
def unsignedText (radix n : Nat) : List UInt8 := (numeral radix n).map digitChar

/-- A decimal number with its sign. -/
def signedText (v : Int) : List UInt8 :=
  if v < 0 then 45 :: unsignedText 10 v.natAbs else unsignedText 10 v.natAbs

/-- The string that an argument points to. -/
def pointsTo (p : UInt32) : Nat → UInt8 := if p = 0 then null else fun i => mem (p.toNat + i)

namespace Conversion

variable (c : Conversion) (ap : Nat)

def widthOf : Nat := (amount mem c.width ap 0).1

/-- The arguments behind the ones of the width. -/
def afterWidth : Nat := (amount mem c.width ap 0).2

def precisionOf : Nat := (amount mem c.precision (c.afterWidth mem ap) 0).1

/-- The argument of the conversion itself. -/
def argument : Nat := (amount mem c.precision (c.afterWidth mem ap) 0).2

/-- The converted text. There is none for a floating-point number here. -/
def textOf : List UInt8 :=
  let arg := word mem (c.argument mem ap)
  match Printf.command c.command with
  | .char => [arg.toUInt8]
  | .string =>
      let precision := c.precisionOf mem ap
      string (pointsTo mem arg) (if precision = 0 then 32767 else precision) 0
  | .signed => signedText arg.toInt32.toInt
  | .float => []
  | .unsigned radix => unsignedText radix.toNat arg.toNat
  | .other => [c.command]

/-- The arguments that are left. -/
def afterArgument : Nat :=
  match Printf.command c.command with
  | .other => c.argument mem ap
  | _ => c.argument mem ap + 4

/-- The zero flag does not count for characters and strings. -/
def zeroFill : Bool :=
  c.zero && Printf.command c.command != .char && Printf.command c.command != .string

/-- What the formatter needs of a conversion. -/
structure Fits : Prop where
  width_stars : StarsFit mem c.width ap
  precision_stars : StarsFit mem c.precision (c.afterWidth mem ap)
  width_int : c.widthOf mem ap < 2147483648
  precision_int : c.precisionOf mem ap < 2147483648
  no_float : Printf.command c.command ≠ .float

end Conversion

/-- A text and the width that it is filled up to. -/
structure Piece where
  left : Bool
  zeros : Bool
  width : Nat
  text : List UInt8

namespace Piece

def filler (p : Piece) : UInt8 := if p.zeros then 48 else 32

def fillers (p : Piece) : List UInt8 := List.replicate (p.width - p.text.length) p.filler

/-- Zeros on the left are placed behind a minus sign. -/
def out (p : Piece) : List UInt8 :=
  if p.left then p.text ++ p.fillers
  else if p.text.head? = some 45 ∧ p.zeros then 45 :: (p.fillers ++ p.text.tail)
  else p.fillers ++ p.text

end Piece

/-- The pieces of a format. A character of its own is a text without a width. -/
def pieces : List Item → (ap : Nat) → List Piece
  | [], _ => []
  | .char c :: items, ap => ⟨false, false, 0, [c]⟩ :: pieces items ap
  | .conversion c :: items, ap =>
      ⟨c.minus, c.zeroFill, c.widthOf mem ap, c.textOf mem ap⟩ :: pieces items
        (c.afterArgument mem ap)

/-- All conversions of the format can be made. -/
def Accepts : List Item → (ap : Nat) → Prop
  | [], _ => True
  | .char _ :: items, ap => Accepts items ap
  | .conversion c :: items, ap => c.Fits mem ap ∧ Accepts items (c.afterArgument mem ap)

/-- The output of a format. -/
def output (items : List Item) (ap : Nat) : List UInt8 := (pieces mem items ap).flatMap Piece.out

end Pieces

theorem Piece.out_length (p : Piece) : p.out.length = max p.width p.text.length := by
  have fillers : p.fillers.length = p.width - p.text.length := List.length_replicate
  rw [Piece.out]
  split_ifs with left sign
  · rw [List.length_append, fillers]
    omega
  · obtain ⟨rest, text⟩ := List.head?_eq_some_iff.mp sign.1
    rw [List.length_cons, List.length_append, fillers, text, List.tail_cons, List.length_cons]
    omega
  · rw [List.length_append, fillers]
    omega

/-- A text that is not shorter than the width is put out as it is. -/
theorem Piece.out_of_not_wide (p : Piece) (not_wide : ¬ p.text.length < p.width) :
    p.out = p.text := by
  have fillers : p.fillers = [] := by
    rw [Piece.fillers, Nat.sub_eq_zero_of_le (not_lt.mp not_wide), List.replicate_zero]
  rw [Piece.out, fillers]
  split_ifs with left sign
  · exact List.append_nil _
  · obtain ⟨rest, text⟩ := List.head?_eq_some_iff.mp sign.1
    rw [text, List.nil_append, List.tail_cons]
  · exact List.nil_append _

/-! ### Amounts -/

section Amounts

variable {mem : Mem}

theorem wrap_eq {v : Int} (ge : -2147483648 ≤ v) (lt : v < 2147483648) : wrap v = v := by
  unfold wrap
  rw [Int.bmod_def]
  omega

theorem countdown_eq {i : Nat} (lt : i < 2147483648) : countdown i = i := by
  rw [countdown, wrap_eq (by omega) (by omega)]
  split_ifs <;> omega

theorem le_amount (mem : Mem) (l : List UInt8) (ap value : Nat) : value ≤ (amount mem l ap value).1 := by
  induction l generalizing ap value with
  | nil => exact le_refl value
  | cons c l ih =>
      rw [amount]
      split_ifs
      · exact le_trans (by omega) (ih _ _)
      · exact le_trans (by omega) (ih _ _)
      · exact le_refl value

/-- The formatter reads an amount that fits. -/
theorem scan_amount {l : List UInt8} {ap value : Nat} (stars : StarsFit mem l ap)
    (fits : (amount mem l ap value).1 < 2147483648) :
    (scan mem l ap value).value = (amount mem l ap value).1 ∧
      (scan mem l ap value).ap = (amount mem l ap value).2 := by
  induction l generalizing ap value with
  | nil => exact ⟨rfl, rfl⟩
  | cons c l ih =>
      rw [amount] at fits ⊢
      rw [StarsFit] at stars
      rw [scan]
      split_ifs at fits stars ⊢ with digit star
      · have le := le_amount mem l ap (value * 10 + (c - 48).toNat)
        have cast : (value : Int) * 10 + ((c - 48).toNat : Int) =
            ((value * 10 + (c - 48).toNat : Nat) : Int) := by push_cast; rfl
        rw [cast, wrap_eq (by omega) (by omega)]
        exact ih stars fits
      · have le := le_amount mem l (ap + 4) (value * 10 + (word mem ap).toNat)
        have small := stars.1
        have byte : (word mem ap).toUInt8.toNat = (word mem ap).toNat := by
          rw [UInt32.toNat_toUInt8]
          omega
        have cast : (value : Int) * 10 + ((word mem ap).toUInt8.toNat : Int) =
            ((value * 10 + (word mem ap).toNat : Nat) : Int) := by rw [byte]; push_cast; rfl
        rw [cast, wrap_eq (by omega) (by omega)]
        exact ih stars.2 fits
      · exact ⟨rfl, rfl⟩

end Amounts

/-! ### Output -/

section Sending

variable {σ : Type} {put : σ → UInt8 → σ}

theorem send_append (s s' : List UInt8) (out : Out σ) :
    send put (s ++ s') out = send put s' (send put s out) := by
  induction s generalizing out with
  | nil => rfl
  | cons c s ih => exact ih _

theorem fill_eq (filler : UInt8) (n : Nat) (out : Out σ) :
    fill put filler n out = send put (List.replicate n filler) out := by
  induction n generalizing out with
  | zero => rfl
  | succ n ih => exact ih _

/-- The stream, and the count as long as it fits. -/
theorem send_spec (s : List UInt8) {out : Out σ} (ge : 0 ≤ out.n)
    (lt : out.n + s.length < 2147483648) :
    send put s out = ⟨s.foldl put out.chp, out.n + s.length⟩ := by
  induction s generalizing out with
  | nil => simp [send]
  | cons c s ih =>
      rw [List.length_cons] at lt
      push_cast at lt
      have count : (streamPut put out c).n = out.n + 1 := wrap_eq (by omega) (by omega)
      rw [send, ih (by omega) (by omega), count, List.length_cons]
      congr 1
      push_cast
      omega

/-- The layout of a piece. -/
theorem layout_spec (put : σ → UInt8 → σ) (p : Piece) (short : p.text.length < 2147483648)
    (fits : p.width < 2147483648)
    (out : Out σ) :
    layout put p.left p.filler p.width p.text out = send put p.out out := by
  have len : wrap p.text.length = p.text.length := wrap_eq (by omega) (by omega)
  have room : wrap (p.width - p.text.length) = p.width - p.text.length :=
    wrap_eq (by omega) (by omega)
  have all : p.text.take (countdown p.text.length) = p.text := by
    rw [countdown_eq short, List.take_length]
  have zeros : p.filler = 48 ↔ p.zeros := by
    unfold Piece.filler
    split_ifs with zeros
    · exact ⟨fun _ => zeros, fun _ => rfl⟩
    · exact ⟨fun space => absurd space (by decide), fun is => absurd is zeros⟩
  have rest : p.text.head? = some 45 →
      p.text.tail.take (countdown (p.text.length - 1)) = p.text.tail := by
    intro sign
    obtain ⟨rest, text⟩ := List.head?_eq_some_iff.mp sign
    rw [text, List.length_cons] at short
    have less : ((rest.length + 1 : Nat) : Int) - 1 = rest.length := by push_cast; omega
    rw [text, List.length_cons, less, countdown_eq (by omega), List.tail_cons, List.take_length]
  simp only [layout, len, room, all, fill_eq, zeros]
  by_cases wide : p.text.length < p.width
  · have positive : ¬ (p.width : Int) - p.text.length < 0 := by omega
    have count : (p.width - p.text.length : Int).toNat = p.width - p.text.length := by omega
    rw [if_neg positive]
    cases left : p.left with
    | true =>
        simp only [if_true, if_neg positive, Piece.out, left, send_append, count]
        rfl
    | false =>
        have negative : -((p.width : Int) - p.text.length) < 0 := by omega
        simp only [Bool.false_eq_true, if_false, if_pos negative, neg_neg, count, Piece.out, left]
        split_ifs with sign
        · rw [rest sign.1]
          exact (send_append _ _ _).symm
        · rw [send_append]
          rfl
  · -- no filler
    have zero : (if (p.width : Int) - p.text.length < 0 then 0 else (p.width : Int) - p.text.length) =
        0 := by
      split_ifs <;> omega
    rw [zero, neg_zero, ite_self, if_neg (lt_irrefl 0), p.out_of_not_wide wide]
    rfl

end Sending

/-! ### Conversions -/

section Decoding

variable {mem : Mem} {c : Conversion} {ap : Nat}

/-- Digits behind a prefix of a buffer. -/
theorem digits_eq {radix : UInt32} (is : Radix radix) (tmpbuf : Buffer) (p : Nat) (l : UInt32) :
    digits tmpbuf p l radix = tmpbuf.slice 0 p ++ text radix l := by
  have bounds := is.bounds
  obtain ⟨s, result, front, kept, -⟩ :=
    ch_ltoa_spec tmpbuf p l (by omega) (text_length_le is l)
  have before : s.slice 0 p = tmpbuf.slice 0 p :=
    slice_congr fun i _ lt => kept i (.inl (by omega))
  rw [digits, result]
  dsimp only
  rw [slice_append, Nat.zero_add, front, before]

theorem string_length_le (s : Nat → UInt8) (left i : Nat) : (string s left i).length ≤ left := by
  induction left generalizing i with
  | zero => exact le_refl 0
  | succ left ih =>
      rw [string]
      split_ifs
      · exact Nat.zero_le _
      · exact Nat.succ_le_succ (ih (i + 1))

/-- A radix of the command table. -/
theorem radix_of_unsigned {command : UInt8} {radix : UInt32}
    (is : Printf.command command = .unsigned radix) : Radix radix := by
  unfold Printf.command at is
  split_ifs at is
  · exact .inr (.inr (Command.unsigned.inj is).symm)
  · exact .inr (.inl (Command.unsigned.inj is).symm)
  · exact .inl (Command.unsigned.inj is).symm

/-- A negative number, as the formatter writes it. -/
theorem signedText_eq (l : UInt32) :
    signedText l.toInt32.toInt = if 0x80000000 ≤ l then 45 :: text 10 (-l) else text 10 l := by
  have value : l.toInt32.toInt =
      if l.toNat < 2147483648 then (l.toNat : Int) else l.toNat - 4294967296 := by
    change l.toBitVec.toInt = _
    rw [BitVec.toInt_eq_toNat_cond]
    have same : l.toBitVec.toNat = l.toNat := rfl
    rw [same]
    split_ifs <;> omega
  have bound := l.toNat_lt
  by_cases negative : 0x80000000 ≤ l
  · have ge : 2147483648 ≤ l.toNat := UInt32.le_iff_toNat_le.mp negative
    have opposite : (-l).toNat = 4294967296 - l.toNat := by
      rw [UInt32.toNat_neg]
      change (4294967296 - l.toNat) % 4294967296 = _
      omega
    have magnitude : l.toInt32.toInt.natAbs = (-l).toNat := by
      rw [value, opposite]
      omega
    have less : l.toInt32.toInt < 0 := by
      rw [value]
      omega
    rw [if_pos negative, signedText, if_pos less, magnitude]
    rfl
  · have lt : l.toNat < 2147483648 := by
      have := UInt32.lt_iff_toNat_lt.mp (UInt32.not_le.mp negative)
      exact this
    have magnitude : l.toInt32.toInt.natAbs = l.toNat := by
      rw [value]
      omega
    have not_less : ¬ l.toInt32.toInt < 0 := by
      rw [value]
      omega
    rw [if_neg negative, signedText, if_neg not_less, magnitude]
    rfl

/-- The amounts of a conversion that fits are the ones that the formatter reads. -/
theorem Conversion.Fits.scans (fits : c.Fits mem ap) :
    (c.widthScan mem ap).value = c.widthOf mem ap ∧
      (c.precisionScan mem ap).value = c.precisionOf mem ap ∧
      (c.precisionScan mem ap).ap = c.argument mem ap := by
  obtain ⟨width, args⟩ := scan_amount fits.width_stars fits.width_int
  have precision := scan_amount fits.precision_stars fits.precision_int
  have after : (c.widthScan mem ap).ap = c.afterWidth mem ap := args
  rw [Conversion.precisionScan, after]
  exact ⟨width, precision⟩

/-- The formatter decodes a conversion to its text. -/
theorem decode_spec (floats : Floats) (fits : c.Fits mem ap) :
    decode floats mem (c.directive mem ap false) (c.precisionScan mem ap).ap =
      Except.ok (if c.zeroFill then 48 else 32, c.textOf mem ap, c.afterArgument mem ap) := by
  obtain ⟨-, precision, args⟩ := fits.scans
  have small := fits.precision_int
  rw [args]
  cases kind : Printf.command c.command with
  | char =>
      simp [decode, pure, Except.pure, Conversion.directive, Conversion.zeroFill, Conversion.textOf,
        Conversion.afterArgument, kind]
  | string =>
      have left : countdown (if (c.precisionScan mem ap).value = 0 then 32767
          else (c.precisionScan mem ap).value) =
          if c.precisionOf mem ap = 0 then 32767 else c.precisionOf mem ap := by
        rw [precision]
        split_ifs with none_given
        · rfl
        · omega
        · omega
        · exact countdown_eq small
      simp [decode, pure, Except.pure, Conversion.directive, Conversion.zeroFill, Conversion.textOf,
        Conversion.afterArgument, kind, pointsTo]
      exact congrArg (fun left => string _ left 0) left
  | signed =>
      have prefix_sign : ((Buffer.mk (fun _ => 0) []).put 0 45).slice 0 1 = [45] := rfl
      have ten : Radix 10 := .inr (.inl rfl)
      simp [decode, pure, Except.pure, Conversion.directive, Conversion.zeroFill, Conversion.textOf,
        Conversion.afterArgument, kind, digits_eq ten, signedText_eq, prefix_sign]
      rfl
  | float => exact absurd kind fits.no_float
  | unsigned radix =>
      simp [decode, pure, Except.pure, Conversion.directive, Conversion.zeroFill, Conversion.textOf,
        Conversion.afterArgument, kind, digits_eq (radix_of_unsigned kind)]
      rfl
  | other =>
      simp [decode, pure, Except.pure, Conversion.directive, Conversion.zeroFill, Conversion.textOf,
        Conversion.afterArgument, kind]

theorem textOf_length (fits : c.Fits mem ap) : (c.textOf mem ap).length < 2147483648 := by
  have small := fits.precision_int
  have digits : ∀ radix l, Radix radix → (text radix l).length < 2147483647 := fun radix l is =>
    lt_of_le_of_lt (text_length_le is l) (by decide)
  rw [Conversion.textOf]
  cases kind : Printf.command c.command with
  | char => exact (by decide : 1 < 2147483648)
  | string =>
      refine lt_of_le_of_lt (string_length_le _ _ _) ?_
      split_ifs
      · decide
      · exact small
  | signed =>
      dsimp only
      rw [signedText_eq]
      split_ifs
      · exact Nat.succ_lt_succ (digits _ _ (.inr (.inl rfl)))
      · exact (digits _ _ (.inr (.inl rfl))).trans (by decide)
  | float => exact absurd kind fits.no_float
  | unsigned radix => exact (digits _ _ (radix_of_unsigned kind)).trans (by decide)
  | other => exact (by decide : 1 < 2147483648)

end Decoding

/-! ### The whole format -/

section Whole

variable {σ : Type} {put : σ → UInt8 → σ} {floats : Floats} {mem : Mem}

/-- A format that can be made is put out piece by piece. -/
theorem run_spec {items : List Item} {ap : Nat} (accepts : Accepts mem items ap) (out : Out σ) :
    run put floats mem items ap out = .ok (send put (output mem items ap) out) := by
  induction items generalizing ap out with
  | nil => rfl
  | cons item items ih =>
      cases item with
      | char c =>
          have piece : Piece.out ⟨false, false, 0, [c]⟩ = [c] := Piece.out_of_not_wide _ (by simp)
          have first : output mem (.char c :: items) ap = c :: output mem items ap := by
            rw [output, pieces, List.flatMap_cons, piece]
            rfl
          rw [run, ih accepts, first]
          rfl
      | conversion c =>
          obtain ⟨fits, accepts⟩ := accepts
          have piece := layout_spec put
            ⟨c.minus, c.zeroFill, c.widthOf mem ap, c.textOf mem ap⟩
            (textOf_length fits) fits.width_int out
          have width := fits.scans.1
          rw [run, decode_spec floats fits]
          simp only [bind, Except.bind, Conversion.directive, width]
          rw [ih accepts]
          rw [Piece.filler] at piece
          rw [piece, ← send_append]
          rfl

theorem chvprintf_spec (put : σ → UInt8 → σ) (floats : Floats) {fmt : Format} {items : List Item} {ap : Nat}
    (parses : Parses fmt.chars items) (accepts : Accepts mem items ap)
    (short : (output mem items ap).length < 2147483648) (chp : σ) :
    chvprintf put floats mem chp fmt ap =
      .ok ⟨(output mem items ap).foldl put chp, (output mem items ap).length⟩ := by
  have zero : (⟨chp, 0⟩ : Out σ).n = 0 := rfl
  rw [chvprintf, loop_of_parses parses fmt.no_nul (Nat.lt_succ_self _), run_spec accepts,
    send_spec _ (le_refl 0) (by omega)]
  simp

end Whole

/-! ### The memory stream -/

section Stream

theorem put_of_full {ms : MemoryStream} (full : ms.eos.toNat = ms.size.toNat) (c : UInt8) :
    ms.put c = ms := by
  have same : ms.size = ms.eos := (UInt32.toNat_inj.mp full).symm
  rw [MemoryStream.put, same, UInt32.sub_self, if_pos (UInt32.le_refl 0)]

theorem put_of_room {ms : MemoryStream} (room : ms.eos.toNat < ms.size.toNat) (c : UInt8) :
    ms.put c = { ms with buffer := ms.buffer.put ms.eos.toNat c, eos := ms.eos + 1 } ∧
      (ms.eos + 1).toNat = ms.eos.toNat + 1 := by
  have bound := ms.size.toNat_lt
  have left : (ms.size - ms.eos).toNat = ms.size.toNat - ms.eos.toNat :=
    UInt32.toNat_sub_of_le _ _ (UInt32.le_iff_toNat_le.mpr room.le)
  have positive : ¬ ms.size - ms.eos ≤ 0 := by
    rw [UInt32.le_iff_toNat_le, left, UInt32.toNat_zero]
    omega
  refine ⟨by rw [MemoryStream.put, if_neg positive], ?_⟩
  rw [UInt32.toNat_add, UInt32.toNat_one]
  omega

/-- What fits is stored, from the end of the stream on, and the rest is dropped. -/
theorem foldl_put (l : List UInt8) (ms : MemoryStream) (room : ms.eos.toNat ≤ ms.size.toNat)
    {n : Nat} (stored : n = min l.length (ms.size.toNat - ms.eos.toNat)) :
    (l.foldl MemoryStream.put ms).eos.toNat = ms.eos.toNat + n ∧
      (l.foldl MemoryStream.put ms).buffer.slice ms.eos.toNat n = l.take n ∧
      (∀ i, i < ms.eos.toNat ∨ ms.eos.toNat + n ≤ i →
        (l.foldl MemoryStream.put ms).buffer.bytes i = ms.buffer.bytes i) ∧
      ∀ i, i ∈ (l.foldl MemoryStream.put ms).buffer.written ↔
        (ms.eos.toNat ≤ i ∧ i < ms.eos.toNat + n) ∨ i ∈ ms.buffer.written := by
  induction l generalizing ms n with
  | nil =>
      have none_stored : n = 0 := by simpa using stored
      subst none_stored
      refine ⟨rfl, rfl, fun _ _ => rfl, fun i => ⟨.inr, ?_⟩⟩
      rintro (inside | old)
      · omega
      · exact old
  | cons c l ih =>
      rw [List.length_cons] at stored
      rw [List.foldl_cons]
      by_cases full : ms.eos.toNat = ms.size.toNat
      · have none_stored : n = 0 := by omega
        subst none_stored
        rw [put_of_full full]
        exact ih ms room (by omega)
      · have less : ms.eos.toNat < ms.size.toNat := by omega
        obtain ⟨step, eos⟩ := put_of_room less c
        obtain ⟨k, rfl⟩ : ∃ k, n = k + 1 := ⟨n - 1, by omega⟩
        have place : (ms.put c).eos.toNat = ms.eos.toNat + 1 := by
          rw [step]
          exact eos
        have size : (ms.put c).size = ms.size := by rw [step]
        have buffer : (ms.put c).buffer = ms.buffer.put ms.eos.toNat c := by rw [step]
        obtain ⟨eos', text, kept, written⟩ := ih (ms.put c) (n := k) (by rw [place, size]; omega)
          (by rw [place, size]; omega)
        rw [place] at eos' text kept written
        rw [buffer] at kept written
        refine ⟨by omega, ?_, ?_, ?_⟩
        · rw [slice_cons, text, kept _ (.inl (by omega)), put_bytes, if_pos rfl]
          rfl
        · intro i outside
          rw [kept i (by omega), put_bytes, if_neg (by omega)]
        · intro i
          rw [written i, put_written, ← or_assoc]
          apply or_congr_left
          omega

/-- Where there is room for a character, the terminator stands behind what is stored. -/
theorem chsnprintf_spec (floats : Floats) {mem : Mem} {fmt : Format} {items : List Item} {ap : Nat}
    (parses : Parses fmt.chars items) (accepts : Accepts mem items ap)
    (short : (output mem items ap).length < 2147483648) (m : Nat → UInt8) (size : UInt32) :
    ∃ str, chsnprintf floats mem ⟨m, []⟩ size fmt ap = .ok (str, (output mem items ap).length) ∧
      str.slice 0 (min (output mem items ap).length (size.toNat - 1)) =
        (output mem items ap).take (min (output mem items ap).length (size.toNat - 1)) ∧
      (0 < size → str.bytes (min (output mem items ap).length (size.toNat - 1)) = 0) ∧
      (∀ i ∈ str.written, i < size.toNat) ∧ ∀ i, i ∉ str.written → str.bytes i = m i := by
  have bound := size.toNat_lt
  have room : (if size > 0 then size - 1 else 0).toNat = size.toNat - 1 := by
    split_ifs with positive
    · exact UInt32.toNat_sub_of_le _ _ (by
        have := UInt32.lt_iff_toNat_lt.mp positive
        rw [UInt32.le_iff_toNat_le, UInt32.toNat_one]
        exact this)
    · have := UInt32.lt_iff_toNat_lt.not.mp positive
      rw [UInt32.toNat_zero] at this ⊢
      omega
  obtain ⟨eos, text, kept, written⟩ := foldl_put (output mem items ap)
    ⟨⟨m, []⟩, if size > 0 then size - 1 else 0, 0⟩ (Nat.zero_le _) rfl
  rw [chsnprintf]
  simp only [chvprintf_spec _ floats parses accepts short, bind, Except.bind]
  generalize (output mem items ap).foldl MemoryStream.put
    ⟨⟨m, []⟩, if size > 0 then size - 1 else 0, 0⟩ = ms at eos text kept written ⊢
  simp only [room, UInt32.toNat_zero, Nat.zero_add, Nat.sub_zero, List.not_mem_nil, or_false]
    at eos text kept written
  refine ⟨_, rfl, ?_⟩
  by_cases positive : 0 < size
  · have pos : 0 < size.toNat := UInt32.lt_iff_toNat_lt.mp positive
    have less : ms.eos < size := by
      rw [UInt32.lt_iff_toNat_lt, eos]
      omega
    rw [if_pos less, eos]
    refine ⟨?_, fun _ => ?_, ?_, ?_⟩
    · rw [← text]
      apply slice_congr
      intro i _ lt
      rw [put_bytes, if_neg (by omega)]
    · rw [put_bytes, if_pos rfl]
    · intro i mem
      rcases List.mem_cons.mp mem with rfl | inside
      · omega
      · have := (written i).mp inside
        omega
    · intro i outside
      have other : i ≠ min (output mem items ap).length (size.toNat - 1) := fun same =>
        outside (same ▸ List.mem_cons_self)
      have after : ¬ (0 ≤ i ∧ i < min (output mem items ap).length (size.toNat - 1)) :=
        fun inside =>
        outside (List.mem_cons_of_mem _ ((written i).mpr inside))
      rw [put_bytes, if_neg other]
      exact kept i (.inr (by omega))
  · have zero : size.toNat = 0 := by
      have := UInt32.lt_iff_toNat_lt.not.mp positive
      rw [UInt32.toNat_zero] at this
      omega
    have not_less : ¬ ms.eos < size := by
      rw [UInt32.lt_iff_toNat_lt]
      omega
    rw [if_neg not_less]
    refine ⟨text, fun is => absurd is positive, ?_, ?_⟩
    · intro i mem
      have := (written i).mp mem
      omega
    · intro i _
      exact kept i (.inr (by omega))

end Stream

/-! ### Truncation -/

section Truncation

/-- What `chsnprintf` stores in `str` and returns is cut from the output of `chvprintf` to a stream
without a bound, and that is the pieces of the format, each filled up to its width. -/
theorem chsnprintf_truncates (floats : Floats) (mem : Mem) (fmt : Format) (items : List Item)
    (ap : Nat) (parses : Parses fmt.chars items) (accepts : Accepts mem items ap)
    (short : (output mem items ap).length < 2147483648) (m : Nat → UInt8) (size : UInt32) :
    ∃ out str,
      chvprintf (fun (l : List UInt8) c => l ++ [c]) floats mem [] fmt ap = .ok ⟨out, out.length⟩ ∧
      chsnprintf floats mem ⟨m, []⟩ size fmt ap = .ok (str, out.length) ∧
      str.slice 0 (min out.length (size.toNat - 1)) = out.take (min out.length (size.toNat - 1)) ∧
      (0 < size → str.bytes (min out.length (size.toNat - 1)) = 0) ∧
      (∀ i ∈ str.written, i < size.toNat) ∧ (∀ i, i ∉ str.written → str.bytes i = m i) ∧
      out = (pieces mem items ap).flatMap Piece.out ∧
      ∀ p ∈ pieces mem items ap, p.out.length = max p.width p.text.length := by
  obtain ⟨str, result, stored⟩ := chsnprintf_spec floats parses accepts short m size
  have stream := chvprintf_spec (fun (l : List UInt8) c => l ++ [c]) floats parses accepts short []
  have all : ∀ l l' : List UInt8, l.foldl (fun l c => l ++ [c]) l' = l' ++ l := by
    intro l l'
    induction l generalizing l' with
    | nil => exact (List.append_nil l').symm
    | cons c l ih => rw [List.foldl_cons, ih, List.append_assoc, List.singleton_append]
  rw [all, List.nil_append] at stream
  exact ⟨_, str, stream, result, stored.1, stored.2.1, stored.2.2.1, stored.2.2.2, rfl,
    fun p _ => p.out_length⟩

/-- A word in the place of the first argument. -/
def sampleMem : Mem := setWord (fun _ => 0) 0 (-42)

def sampleFormat : Format := ⟨[37, 48, 53, 100], by decide⟩

def sampleItems : List Item := [.conversion ⟨false, true, [53], [], 100⟩]

/-- `"%05d"` with -42 is `"-0042"`. -/
theorem sampleItems_output : output sampleMem sampleItems 0 = [45, 48, 48, 52, 50] := by
  decide

/-- Four bytes are enough for `"-00"`. -/
theorem chsnprintf_truncates_sample : ∃ str,
    chsnprintf ⟨fun _ => false, id⟩ sampleMem ⟨fun _ => 255, []⟩ 4 sampleFormat 0 =
      .ok (str, 5) ∧ str.slice 0 3 = [45, 48, 48] ∧ str.bytes 3 = 0 := by
  have fits : Conversion.Fits sampleMem ⟨false, true, [53], [], 100⟩ 0 :=
    ⟨trivial, trivial, by decide, by decide, by decide⟩
  obtain ⟨out, str, -, result, text, terminator, -, -, rfl, -⟩ :=
    chsnprintf_truncates ⟨fun _ => false, id⟩ sampleMem sampleFormat sampleItems 0
      (.conversion rfl .nil) ⟨fits, trivial⟩ (by rw [sampleItems_output]; decide) (fun _ => 255) 4
  have out : (pieces sampleMem sampleItems 0).flatMap Piece.out = [45, 48, 48, 52, 50] :=
    sampleItems_output
  rw [out] at result text terminator
  exact ⟨str, result, text, terminator (by decide)⟩

end Truncation

end LtcOs.Printf
