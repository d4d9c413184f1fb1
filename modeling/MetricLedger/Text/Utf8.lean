/-!
# Bytes and characters

The UTF-8 encoding of a text and its strict decoding. A byte sequence that is no UTF-8 is refused
at its first faulty place, with the length of the sequence that no character starts with.
-/

namespace MetricLedger.Text

/-- Where a byte sequence stops being UTF-8. -/
inductive Utf8Fault where
  /-- From the index on, this many bytes begin no character. -/
  | invalid (length index : Nat)
  /-- The bytes end inside the character that starts at the index. -/
  | incomplete (index : Nat)
  deriving DecidableEq, Repr

/-- The wording of a decoding fault. -/
def Utf8Fault.message : Utf8Fault → String
  | .invalid length index => s!"invalid utf-8 sequence of {length} bytes from index {index}"
  | .incomplete index => s!"incomplete utf-8 byte sequence from index {index}"

/-- The bytes of a text. -/
def utf8Encode (cs : List Char) : List UInt8 := cs.flatMap String.utf8EncodeChar

def utf8Bytes (s : String) : List UInt8 := utf8Encode s.toList

/-- A byte that continues a character. -/
def isContinuation (b : UInt8) : Bool := 0x80 ≤ b && b ≤ 0xBF

/-- The second bytes that may follow the first byte of a longer character. -/
def secondByteOk (b₀ b₁ : UInt8) : Bool :=
  if b₀ == 0xE0 then 0xA0 ≤ b₁ && b₁ ≤ 0xBF
  else if b₀ == 0xED then 0x80 ≤ b₁ && b₁ ≤ 0x9F
  else if b₀ == 0xF0 then 0x90 ≤ b₁ && b₁ ≤ 0xBF
  else if b₀ == 0xF4 then 0x80 ≤ b₁ && b₁ ≤ 0x8F
  else isContinuation b₁

/-- The low six bits of a byte. -/
def lowSix (b : UInt8) : Nat := b.toNat % 64

/-- Decodes bytes whose first one has the index `index`. -/
def utf8DecodeFrom (index : Nat) : List UInt8 → Except Utf8Fault (List Char)
  | [] => .ok []
  | b₀ :: r₀ =>
      if b₀ < 0x80 then
        (Char.ofNat b₀.toNat :: ·) <$> utf8DecodeFrom (index + 1) r₀
      else if b₀ < 0xC2 || 0xF4 < b₀ then .error (.invalid 1 index)
      else
        match r₀ with
        | [] => .error (.incomplete index)
        | b₁ :: r₁ =>
            if !secondByteOk b₀ b₁ then .error (.invalid 1 index)
            else if b₀ < 0xE0 then
              (Char.ofNat (b₀.toNat % 32 * 64 + lowSix b₁) :: ·) <$> utf8DecodeFrom (index + 2) r₁
            else
              match r₁ with
              | [] => .error (.incomplete index)
              | b₂ :: r₂ =>
                  if !isContinuation b₂ then .error (.invalid 2 index)
                  else if b₀ < 0xF0 then
                    (Char.ofNat (b₀.toNat % 16 * 4096 + lowSix b₁ * 64 + lowSix b₂) :: ·) <$>
                      utf8DecodeFrom (index + 3) r₂
                  else
                    match r₂ with
                    | [] => .error (.incomplete index)
                    | b₃ :: r₃ =>
                        if !isContinuation b₃ then .error (.invalid 3 index)
                        else
                          (Char.ofNat (b₀.toNat % 8 * 262144 + lowSix b₁ * 4096 +
                            lowSix b₂ * 64 + lowSix b₃) :: ·) <$> utf8DecodeFrom (index + 4) r₃

/-- Decodes a whole byte sequence. -/
def utf8Decode (bs : List UInt8) : Except Utf8Fault (List Char) := utf8DecodeFrom 0 bs

/-- The character that stands for bytes that begin no character. -/
def replacement : Char := '\uFFFD'

/-- Decodes bytes with at most `fuel` replacements. -/
def utf8DecodeLossyUpTo : Nat → List UInt8 → List Char
  | 0, _ => []
  | fuel + 1, bs =>
      let before (index : Nat) : List Char := ((utf8Decode (bs.take index)).toOption).getD []
      match utf8Decode bs with
      | .ok cs => cs
      | .error (.incomplete index) => before index ++ [replacement]
      | .error (.invalid length index) =>
          before index ++ replacement :: utf8DecodeLossyUpTo fuel (bs.drop (index + length))

/-- Decodes bytes, with a replacement for every part that is no text. -/
def utf8DecodeLossy (bs : List UInt8) : List Char := utf8DecodeLossyUpTo (bs.length + 1) bs

end MetricLedger.Text
