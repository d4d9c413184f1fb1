/-!
# Buffers for reuse

Buffers that lines were written to are kept, emptied, for the next lines. The buffer given back
last is taken first, and a buffer keeps the room it has grown to.
-/

namespace MetricLedger.Log

/-- A buffer of bytes, with the number of bytes that it has room for. -/
structure Buffer where
  bytes : List UInt8
  capacity : Nat
  deriving DecidableEq, Repr

namespace Buffer

/-- The least room that a buffer grows to. -/
def leastGrowth : Nat := 8

def empty (capacity : Nat) : Buffer := ⟨[], capacity⟩

/-- The buffer with bytes put behind its own; a buffer too small at least doubles its room. -/
def append (b : Buffer) (bytes : List UInt8) : Buffer :=
  let needed := b.bytes.length + bytes.length
  let capacity :=
    if needed ≤ b.capacity then b.capacity
    else max leastGrowth (max (2 * b.capacity) needed)
  ⟨b.bytes ++ bytes, capacity⟩

/-- The buffer without its bytes. -/
def clear (b : Buffer) : Buffer := ⟨[], b.capacity⟩

end Buffer

/-- The idle buffers. -/
structure Buffers where
  /-- The idle buffers, the one to be taken next first. -/
  idle : List Buffer
  /-- The number of idle buffers that are kept at most. -/
  limit : Nat
  /-- The room of a new buffer. -/
  freshCapacity : Nat
  deriving Repr

namespace Buffers

/-- No idle buffer yet. -/
def fresh (limit freshCapacity : Nat) : Buffers := ⟨[], limit, freshCapacity⟩

/-- Up to 64 idle buffers, new ones with room for a usual line. -/
def standard : Buffers := fresh 64 128

/-- Takes an idle buffer, or a new one. -/
def take (p : Buffers) : Buffer × Buffers :=
  match p.idle with
  | b :: rest => (b, ⟨rest, p.limit, p.freshCapacity⟩)
  | [] => (Buffer.empty p.freshCapacity, p)

/-- Gives a buffer back; it is emptied, and dropped if there are enough. -/
def give (p : Buffers) (b : Buffer) : Buffers :=
  if p.idle.length < p.limit then ⟨b.clear :: p.idle, p.limit, p.freshCapacity⟩ else p

end Buffers

end MetricLedger.Log
