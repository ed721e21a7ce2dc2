import Mathlib.Tactic.Ring
import Gpgmepp.FlagsRefinement

/-! `operator<<(std::ostream &, const Flags<Enum, _Nb> &)` from flags.h inserts
`std::bitset<_Nb>(flags.toUnderlyingType())`. The value reaches the bitset through its
`unsigned long long` constructor, and the bitset is inserted as the string of its `_Nb` digits,
highest bit first, by formatted output: a stream that is not good is left alone; otherwise the
digits are padded with `fill()` up to `width()`, after them when the adjustment is `left` and
before them otherwise, and `width()` becomes 0. The stream's buffer accepts every character. -/
namespace FlagsOutput

open CIntegers FlagsClass FlagsAlgebra FlagsRefinement

variable {d : DataModel} {U : IntType} {N : ℕ}

end FlagsOutput
