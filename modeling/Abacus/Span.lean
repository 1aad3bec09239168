import Abacus.Text.Offset

set_option autoImplicit false

/-!
# Spans

A span is a range of byte offsets into a source text, from `start` up to but not including
`stop`.  The empty span at offset zero doubles as the span of what has no place in the
source.
-/

namespace Abacus

/-- A half-open range of byte offsets. -/
structure Span where
  start : Nat
  stop : Nat
  deriving DecidableEq, Repr

namespace Span

/-- The empty span at an offset, as at the end of the input. -/
def point (offset : Nat) : Span := ⟨offset, offset⟩

/-- The span of what stands nowhere in the source. -/
def nowhere : Span := ⟨0, 0⟩

instance : Inhabited Span := ⟨nowhere⟩

/-- The least span that encloses both. -/
def combine (a b : Span) : Span := ⟨min a.start b.start, max a.stop b.stop⟩

/-- A span without any byte in it. -/
def isEmpty (s : Span) : Bool := decide (s.stop ≤ s.start)

/-- The text that a span covers, where both its ends are character boundaries in order. -/
def text? (s : Span) (source : List Char) : Option (List Char) :=
  Text.slice? source s.start s.stop

/-- The first span lies within the second. -/
def Within (inner outer : Span) : Prop :=
  outer.start ≤ inner.start ∧ inner.stop ≤ outer.stop

instance (inner outer : Span) : Decidable (inner.Within outer) :=
  inferInstanceAs (Decidable (_ ∧ _))

theorem within_combine_left (a b : Span) : a.Within (combine a b) :=
  ⟨Nat.min_le_left _ _, Nat.le_max_left _ _⟩

theorem within_combine_right (a b : Span) : b.Within (combine a b) :=
  ⟨Nat.min_le_right _ _, Nat.le_max_right _ _⟩

theorem combine_within {a b c : Span} (ha : a.Within c) (hb : b.Within c) :
    (combine a b).Within c :=
  ⟨Nat.le_min.mpr ⟨ha.1, hb.1⟩, Nat.max_le.mpr ⟨ha.2, hb.2⟩⟩

theorem Within.refl (a : Span) : a.Within a := ⟨Nat.le_refl _, Nat.le_refl _⟩

theorem Within.trans {a b c : Span} (hab : a.Within b) (hbc : b.Within c) : a.Within c :=
  ⟨Nat.le_trans hbc.1 hab.1, Nat.le_trans hab.2 hbc.2⟩

end Span

end Abacus
