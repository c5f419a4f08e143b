/-!
# Text from bytes

Strict reading of UTF-8. A character starts with a byte that fixes how many bytes follow and in
which range each of them lies; a sequence that leaves this pattern is a fault, and the fault names
the bytes that were good up to there. `unifyNewlines` turns each kind of line end into a line feed.

Headlines:
* `readUtf8_ascii`: bytes below 128 are read as the characters with these code points.
* `unifyNewlines_eq_self`: a text without carriage returns stays as it is.
-/

namespace LoxKit.Text

/-- What is wrong with bytes that are not UTF-8. -/
inductive Utf8Cause where
  /-- No character starts with this byte. -/
  | invalidStart
  /-- A byte does not continue the character begun before it. -/
  | invalidContinuation
  /-- The bytes end inside a character. -/
  | unexpectedEnd
  deriving Repr, DecidableEq

/-- The first fault in bytes that are not UTF-8: the bytes from `start` up to but not including
`stop` begin a character that does not go on. -/
structure Utf8Fault where
  cause : Utf8Cause
  start : Nat
  stop : Nat
  first : UInt8
  deriving Repr, DecidableEq

/-- What the cause of a fault is called. -/
def Utf8Cause.message : Utf8Cause → String
  | .invalidStart => "invalid start byte"
  | .invalidContinuation => "invalid continuation byte"
  | .unexpectedEnd => "unexpected end of data"

/-- The two hexadecimal digits of a byte. -/
def byteDigits (b : UInt8) : String :=
  let digit (n : Nat) : Char := if n < 10 then Char.ofNat (0x30 + n) else Char.ofNat (0x57 + n)
  String.ofList [digit (b.toNat / 16), digit (b.toNat % 16)]

/-- A fault in words. -/
def Utf8Fault.message (f : Utf8Fault) : String :=
  let what :=
    if f.stop = f.start + 1 then "byte 0x" ++ byteDigits f.first ++ " in position " ++ toString f.start
    else "bytes in position " ++ toString f.start ++ "-" ++ toString (f.stop - 1)
  "'utf-8' codec can't decode " ++ what ++ ": " ++ f.cause.message

/-- The range of a byte that continues a character. -/
def tailRange : Nat × Nat := (0x80, 0xBF)

/-- The bits that a first byte contributes and the ranges of the bytes that have to follow it. -/
def leadByte (b : Nat) : Option (Nat × List (Nat × Nat)) :=
  if b < 0x80 then some (b, [])
  else if b < 0xC2 then none
  else if b < 0xE0 then some (b - 0xC0, [tailRange])
  else if b = 0xE0 then some (0, [(0xA0, 0xBF), tailRange])
  else if b = 0xED then some (0xD, [(0x80, 0x9F), tailRange])
  else if b < 0xF0 then some (b - 0xE0, [tailRange, tailRange])
  else if b = 0xF0 then some (0, [(0x90, 0xBF), tailRange, tailRange])
  else if b < 0xF4 then some (b - 0xF0, [tailRange, tailRange, tailRange])
  else if b = 0xF4 then some (4, [(0x80, 0x8F), tailRange, tailRange])
  else none

/-- A character of which some bytes are still owed. -/
structure OpenChar where
  start : Nat
  first : UInt8
  bits : Nat
  owed : List (Nat × Nat)

/-- Reads on at position `pos`, with the characters read so far in reverse order in `done`. -/
def readUtf8From (pos : Nat) (openChar : Option OpenChar) (done : List Char) :
    List UInt8 → Except Utf8Fault (List Char)
  | [] =>
    match openChar with
    | none => .ok done.reverse
    | some o => .error ⟨.unexpectedEnd, o.start, pos, o.first⟩
  | b :: bs =>
    match openChar with
    | none =>
      match leadByte b.toNat with
      | none => .error ⟨.invalidStart, pos, pos + 1, b⟩
      | some (bits, []) => readUtf8From (pos + 1) none (Char.ofNat bits :: done) bs
      | some (bits, owed) => readUtf8From (pos + 1) (some ⟨pos, b, bits, owed⟩) done bs
    | some o =>
      match o.owed with
      | [] => .error ⟨.invalidContinuation, o.start, pos, o.first⟩
      | (low, high) :: more =>
        if low ≤ b.toNat ∧ b.toNat ≤ high then
          let bits := o.bits * 64 + b.toNat % 64
          if more.isEmpty then readUtf8From (pos + 1) none (Char.ofNat bits :: done) bs
          else readUtf8From (pos + 1) (some ⟨o.start, o.first, bits, more⟩) done bs
        else .error ⟨.invalidContinuation, o.start, pos, o.first⟩

/-- The characters that bytes stand for, or the first fault in them. -/
def readUtf8 (bytes : List UInt8) : Except Utf8Fault (List Char) :=
  readUtf8From 0 none [] bytes

/-- The text with each line end written as a line feed. -/
def unifyNewlines : List Char → List Char
  | [] => []
  | '\r' :: '\n' :: cs => '\n' :: unifyNewlines cs
  | c :: cs => (if c = '\r' then '\n' else c) :: unifyNewlines cs

theorem readUtf8From_ascii (pos : Nat) (done : List Char) (bytes : List UInt8)
    (h : ∀ b ∈ bytes, b.toNat < 0x80) :
    readUtf8From pos none done bytes = .ok (done.reverse ++ bytes.map (Char.ofNat ·.toNat)) := by
  induction bytes generalizing pos done with
  | nil => simp [readUtf8From]
  | cons b bs ih =>
    have hb : leadByte b.toNat = some (b.toNat, []) := by
      simp [leadByte, h b (by simp)]
    simp only [readUtf8From, hb]
    rw [ih _ _ fun c hc => h c (List.mem_cons_of_mem _ hc)]
    simp

/-- Bytes below 128 are read as the characters with these code points. -/
theorem readUtf8_ascii (bytes : List UInt8) (h : ∀ b ∈ bytes, b.toNat < 0x80) :
    readUtf8 bytes = .ok (bytes.map (Char.ofNat ·.toNat)) := by
  simpa [readUtf8] using readUtf8From_ascii 0 [] bytes h

/-- A text without carriage returns stays as it is. -/
theorem unifyNewlines_eq_self {cs : List Char} (h : '\r' ∉ cs) : unifyNewlines cs = cs := by
  fun_induction unifyNewlines cs with
  | case1 => rfl
  | case2 cs ih => simp at h
  | case3 c cs _ ih =>
    simp only [List.mem_cons, not_or] at h
    rw [ih h.2, if_neg fun hc => h.1 hc.symm]

end LoxKit.Text
