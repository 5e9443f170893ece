import EvmFlow.Signed64

/-!
# Spans of opcode indices

* `Span`: a half-open interval of opcode indices;
* `Span.len`, `Span.isEmpty`, `Span.contains`, `Span.render`: its size, membership and text.

The ends are counted in signed 64-bit integers, so that `Span.len` wraps where their difference does
not fit.
-/

namespace EvmFlow

/-- The indices from `start` up to, but not including, `stop`. -/
structure Span where
  start : Int
  stop : Int
deriving DecidableEq, Repr

namespace Span

/-- The number of indices, as a signed 64-bit integer. -/
def len (s : Span) : Int := Signed64.wrap (s.stop - s.start)

/-- Whether the span has no index. -/
def isEmpty (s : Span) : Bool := s.stop ≤ s.start

/-- Whether `i` lies in the span. -/
def contains (s : Span) (i : Int) : Bool := s.start ≤ i && i < s.stop

/-- The two ends, with two dots between. -/
def render (s : Span) : String := s!"{s.start}..{s.stop}"

end Span

end EvmFlow
